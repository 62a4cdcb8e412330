import OsZero.Zas.Layout
import OsZero.Zas.Symtab

set_option autoImplicit false

namespace OsZero.Zas.Resolve

open Stores Cstring Symtab

def ZASRESOLVE : Adr := ~~~0

-- A global label has the fields of a symbol.
structure Assembler where
  asm : Asm
  zasglobhash : Nat → List Symrec
  symqueue : List Symrec

def globkey (name : List UInt8) : Nat := masked true (charsum name)

def zasaddglob (assembler : Assembler) (label : Symrec) : Assembler :=
  { assembler with zasglobhash := Function.update assembler.zasglobhash (globkey label.name) (label :: assembler.zasglobhash (globkey label.name)) }

def zasfindglob (assembler : Assembler) (name : List UInt8) : Option Symrec :=
  (assembler.zasglobhash (globkey name)).find? fun label => label.name = name

def zasqueuesym (assembler : Assembler) (sym : Symrec) : Assembler := { assembler with symqueue := sym :: assembler.symqueue }

inductive Stop where
  | unresolved (name : List UInt8)
  | invalid (name : List UInt8)

def target (assembler : Assembler) (sym : Symrec) : Except Stop Adr :=
  if sym.adr = ZASRESOLVE then .error (.unresolved sym.name)
  else
    match zasfindsym assembler.asm sym.name with
    | some item => if item.adr = ZASRESOLVE then .error (.invalid item.name) else .ok item.adr
    | none =>
        match zasfindglob assembler sym.name with
        | some label => .ok label.adr
        | none => .error (.unresolved sym.name)

-- while (sym), with *((zasmemadr_t *)sym->adr) = adr.
def resolveLoop (assembler : Assembler) : Mem UInt8 → List Symrec → Except Stop (Mem UInt8)
  | mem, [] => .ok mem
  | mem, sym :: queue => (target assembler sym).bind fun adr => resolveLoop assembler (mem.fill sym.adr.toNat (littleendian 8 adr)) queue

def zasresolve (assembler : Assembler) : Except Stop Assembler :=
  (resolveLoop assembler assembler.asm.mem assembler.symqueue).map fun mem =>
    { assembler with asm := { assembler.asm with mem := mem }, symqueue := [] }

-- What a translation does with names.
inductive Event where
  | label (name : List UInt8) (adr : Adr)
  | glob (name : List UInt8) (adr : Adr)
  | ref (name : List UInt8) (site : Adr)

def step (opsize : Adr) (assembler : Assembler) : Event → Assembler
  | .label name adr => { assembler with asm := (zasproclabel opsize assembler.asm adr name).1 }
  | .glob name adr => zasaddglob assembler ⟨name, adr⟩
  | .ref name site => zasqueuesym assembler ⟨name, site⟩

def start (mem : Mem UInt8) : Assembler := ⟨⟨mem, fun _ => [], 0, false⟩, fun _ => [], []⟩

-- The names of a program without tables: the address a name was given last, and the
-- references, the newest first.
structure Scope where
  labels : List UInt8 → Option Adr
  globs : List UInt8 → Option Adr
  refs : List Symrec
  startset : Bool

def Scope.empty : Scope := ⟨fun _ => none, fun _ => none, [], false⟩

def see (opsize : Adr) (scope : Scope) : Event → Scope
  | .label name adr =>
      let first := !scope.startset && (text "_start").isPrefixOf name
      let place := if first && decide (adr &&& (opsize - 1) ≠ 0) then rounduppow2 adr opsize else adr
      { scope with labels := Function.update scope.labels name (some place), startset := scope.startset || first }
  | .glob name adr => { scope with globs := Function.update scope.globs name (some adr) }
  | .ref name site => { scope with refs := ⟨name, site⟩ :: scope.refs }

-- A label of the file goes before a global one.
def Scope.meaning (scope : Scope) (sym : Symrec) : Except Stop Adr :=
  if sym.adr = ZASRESOLVE then .error (.unresolved sym.name)
  else
    match scope.labels sym.name, scope.globs sym.name with
    | some adr, _ => if adr = ZASRESOLVE then .error (.invalid sym.name) else .ok adr
    | none, some adr => .ok adr
    | none, none => .error (.unresolved sym.name)

-- Nothing that is stored at one reference is stored at the other.
def Clear (place : Nat) (sym : Symrec) : Prop := place < sym.adr.toNat ∨ sym.adr.toNat + 8 ≤ place

structure Linked (scope : Scope) (mem : Mem UInt8) (done : Assembler) : Prop where
  symqueue : done.symqueue = []
  meant : ∀ sym ∈ scope.refs, ∃ adr, scope.meaning sym = .ok adr
  stored : ∀ newer sym older adr, scope.refs = newer ++ sym :: older → scope.meaning sym = .ok adr → ∀ (k : Nat) (byte : UInt8),
    (littleendian 8 adr)[k]? = some byte → (∀ other ∈ older, Clear (sym.adr.toNat + k) other) → done.asm.mem.cell (sym.adr.toNat + k) = byte
  kept : ∀ place, (∀ sym ∈ scope.refs, Clear place sym) → done.asm.mem.cell place = mem.cell place

-- The newest reference without a meaning is the one that is reported.
structure Reported (scope : Scope) (stop : Stop) : Prop where
  newest : ∃ newer sym older, scope.refs = newer ++ sym :: older ∧ scope.meaning sym = .error stop ∧
    ∀ before ∈ newer, ∃ adr, scope.meaning before = .ok adr

structure Sees (assembler : Assembler) (scope : Scope) : Prop where
  labels : ∀ name, (zasfindsym assembler.asm name).map Symrec.adr = scope.labels name
  globs : ∀ name, (zasfindglob assembler name).map Symrec.adr = scope.globs name
  refs : assembler.symqueue = scope.refs
  startset : assembler.asm.startset = scope.startset

section Steps

variable (opsize : Adr) (assembler : Assembler) (scope : Scope)

theorem findglob_add (label : Symrec) (name : List UInt8) :
    zasfindglob (zasaddglob assembler label) name = if label.name = name then some label else zasfindglob assembler name := by
  unfold zasfindglob zasaddglob
  dsimp only
  by_cases same : label.name = name
  · rw [same, Function.update_self, List.find?_cons_of_pos (by simpa using same), if_pos rfl]
  · rw [if_neg same]
    by_cases bin : globkey name = globkey label.name
    · rw [bin, Function.update_self, List.find?_cons_of_neg (by simpa using same)]
    · rw [Function.update_of_ne bin]

theorem step_mem (event : Event) : (step opsize assembler event).asm.mem = assembler.asm.mem := by
  cases event with
  | label name adr => exact (proclabel_rest opsize assembler.asm adr name).1
  | glob name adr => rfl
  | ref name site => rfl

theorem step_sees (sees : Sees assembler scope) (event : Event) : Sees (step opsize assembler event) (see opsize scope event) := by
  obtain ⟨labels, globs, refs, startset⟩ := sees
  cases event with
  | label name adr =>
    refine ⟨fun other => ?_, globs, refs, ?_⟩
    · by_cases same : other = name
      · obtain ⟨sym, found, place⟩ := proclabel_find opsize assembler.asm adr name
        simp only [step, see, same, Function.update_self, found, Option.map_some, place, labeladr, startset]
      · simp only [step, see, Function.update_of_ne same, proclabel_other opsize assembler.asm adr name other same, labels]
    · rw [step, see, (proclabel_rest opsize assembler.asm adr name).2, startset]
  | glob name adr =>
    refine ⟨labels, fun other => ?_, refs, startset⟩
    rw [step, see, findglob_add]
    by_cases same : name = other
    · simp only [same, if_true, Option.map_some, Function.update_self]
    · simp only [same, if_false, globs, Function.update_of_ne (Ne.symm same)]
  | ref name site => exact ⟨labels, globs, congrArg _ refs, startset⟩

theorem run_sees (mem : Mem UInt8) (events : List Event) : Sees (events.foldl (step opsize) (start mem)) (events.foldl (see opsize) Scope.empty) ∧
    (events.foldl (step opsize) (start mem)).asm.mem = mem := by
  induction events using List.reverseRecOn with
  | nil => exact ⟨⟨fun _ => rfl, fun _ => rfl, rfl, rfl⟩, rfl⟩
  | append_singleton events event ih =>
    simp only [List.foldl_append, List.foldl_cons, List.foldl_nil]
    exact ⟨step_sees opsize _ _ ih.1 event, (step_mem opsize _ event).trans ih.2⟩

theorem target_meaning (sees : Sees assembler scope) (sym : Symrec) : target assembler sym = scope.meaning sym := by
  have label := sees.labels sym.name
  have glob := sees.globs sym.name
  unfold target Scope.meaning
  cases found : zasfindsym assembler.asm sym.name with
  | some item =>
    have name : item.name = sym.name := by simpa using List.find?_some found
    rw [found, Option.map_some] at label
    rw [← label]
    dsimp only
    rw [name]
  | none =>
    rw [found, Option.map_none] at label
    rw [← label]
    cases other : zasfindglob assembler sym.name with
    | some item =>
      rw [other, Option.map_some] at glob
      rw [← glob]
    | none =>
      rw [other, Option.map_none] at glob
      rw [← glob]

end Steps

section Loop

variable (assembler : Assembler) (mem : Mem UInt8) (queue : List Symrec)

theorem loop_error (stop : Stop) (left : resolveLoop assembler mem queue = .error stop) : ∃ newer sym older, queue = newer ++ sym :: older ∧
    target assembler sym = .error stop ∧ ∀ before ∈ newer, ∃ adr, target assembler before = .ok adr := by
  induction queue generalizing mem with
  | nil => contradiction
  | cons sym queue ih =>
    cases found : target assembler sym with
    | error other =>
      rw [resolveLoop, found] at left
      obtain rfl := Except.error.inj left
      exact ⟨[], sym, queue, rfl, found, fun _ inside => absurd inside List.not_mem_nil⟩
    | ok adr =>
      rw [resolveLoop, found] at left
      obtain ⟨newer, bad, older, rfl, stopped, fine⟩ := ih _ left
      refine ⟨sym :: newer, bad, older, rfl, stopped, fun before inside => ?_⟩
      rcases List.mem_cons.mp inside with rfl | later
      · exact ⟨adr, found⟩
      · exact fine before later

theorem loop_meant (done : Mem UInt8) (left : resolveLoop assembler mem queue = .ok done) (sym : Symrec) (inside : sym ∈ queue) :
    ∃ adr, target assembler sym = .ok adr := by
  induction queue generalizing mem with
  | nil => contradiction
  | cons first queue ih =>
    cases found : target assembler first with
    | error stop =>
      rw [resolveLoop, found] at left
      contradiction
    | ok adr =>
      rw [resolveLoop, found] at left
      rcases List.mem_cons.mp inside with rfl | later
      · exact ⟨adr, found⟩
      · exact ih _ left later

theorem loop_kept (done : Mem UInt8) (left : resolveLoop assembler mem queue = .ok done) (place : Nat) (clear : ∀ sym ∈ queue, Clear place sym) :
    done.cell place = mem.cell place := by
  induction queue generalizing mem with
  | nil =>
    obtain rfl := Except.ok.inj left
    rfl
  | cons first queue ih =>
    cases found : target assembler first with
    | error stop =>
      rw [resolveLoop, found] at left
      contradiction
    | ok adr =>
      rw [resolveLoop, found] at left
      have outside : place < first.adr.toNat ∨ first.adr.toNat + (littleendian 8 adr).length ≤ place := clear first List.mem_cons_self
      exact (ih _ left fun sym later => clear sym (List.mem_cons_of_mem _ later)).trans (fill_outside mem _ place _ outside)

theorem loop_stored (done : Mem UInt8) (newer older : List Symrec) (sym : Symrec) (adr : Adr) (k : Nat) (byte : UInt8)
    (left : resolveLoop assembler mem (newer ++ sym :: older) = .ok done) (meant : target assembler sym = .ok adr)
    (get : (littleendian 8 adr)[k]? = some byte) (clear : ∀ other ∈ older, Clear (sym.adr.toNat + k) other) : done.cell (sym.adr.toNat + k) = byte := by
  induction newer generalizing mem with
  | nil =>
    rw [List.nil_append, resolveLoop, meant] at left
    exact (loop_kept assembler _ older done left _ clear).trans (fill_inside mem _ k _ byte get)
  | cons first newer ih =>
    cases found : target assembler first with
    | error stop =>
      rw [List.cons_append, resolveLoop, found] at left
      contradiction
    | ok other =>
      rw [List.cons_append, resolveLoop, found] at left
      exact ih _ left

end Loop

-- A reference may come before its label and a label may come again: what counts is where
-- the label was put last.
theorem zasresolve_links (opsize : Adr) (mem : Mem UInt8) (events : List Event) :
    match zasresolve (events.foldl (step opsize) (start mem)) with
    | .ok done => Linked (events.foldl (see opsize) Scope.empty) mem done
    | .error stop => Reported (events.foldl (see opsize) Scope.empty) stop := by
  obtain ⟨sees, before⟩ := run_sees opsize mem events
  generalize events.foldl (step opsize) (start mem) = assembler at sees before
  generalize events.foldl (see opsize) Scope.empty = scope at sees
  have meaning := target_meaning assembler scope sees
  unfold zasresolve
  rw [before, sees.refs]
  cases left : resolveLoop assembler mem scope.refs with
  | ok done =>
    refine ⟨rfl, fun sym inside => ?_, fun newer sym older adr split meant k byte get clear => ?_, fun place clear => ?_⟩
    · rw [← meaning]
      exact loop_meant assembler mem scope.refs done left sym inside
    · rw [split] at left
      exact loop_stored assembler mem done newer older sym adr k byte left ((meaning sym).trans meant) get clear
    · exact loop_kept assembler mem scope.refs done left place clear
  | error stop =>
    obtain ⟨newer, sym, older, split, stopped, fine⟩ := loop_error assembler mem scope.refs stop left
    refine ⟨newer, sym, older, split, (meaning sym).symm.trans stopped, fun earlier inside => ?_⟩
    rw [← meaning]
    exact fine earlier inside

end OsZero.Zas.Resolve

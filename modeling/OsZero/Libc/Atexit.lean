import Mathlib.Data.List.Basic
import Mathlib.Data.List.Perm.Basic

set_option autoImplicit false

namespace OsZero.Libc.Atexit

variable {Func Arg : Type}

structure Exitcmd (Func Arg : Type) where
  func : Func
  arg : Option Arg
deriving DecidableEq, Repr

-- g_exit. The two lists share no item and an item is not changed once it is in one, so
-- a list pointer is the list it leads to.
structure Exit (Func Arg : Type) where
  atexitq : List (Exitcmd Func Arg)
  on_exitq : List (Exitcmd Func Arg)

inductive Registers (Func Arg : Type) where
  | atexit (func : Func)
  | on_exit (func : Func) (arg : Option Arg)
deriving DecidableEq, Repr

-- A call of a handler and what the handler registers while it runs. __atexit passes no
-- argument, __on_exit the status and the item's argument.
inductive Call (Func Arg : Type) where
  | plain (func : Func)
  | withstatus (func : Func) (status : Int) (arg : Option Arg)
deriving DecidableEq, Repr

structure Event (Func Arg : Type) where
  call : Call Func Arg
  registers : List (Registers Func Arg)
deriving DecidableEq, Repr

-- What a handler does may depend on all that has been called before it.
abbrev Program (Func Arg : Type) := List (Event Func Arg) → Call Func Arg → List (Registers Func Arg)

def Exit.register (exit : Exit Func Arg) : Registers Func Arg → Exit Func Arg
  | .atexit func => { exit with atexitq := ⟨func, none⟩ :: exit.atexitq }
  | .on_exit func arg => { exit with on_exitq := ⟨func, arg⟩ :: exit.on_exitq }

def Exit.registerAll (exit : Exit Func Arg) (made : List (Registers Func Arg)) : Exit Func Arg := made.foldl Exit.register exit

-- The loop of __atexit behind the first read of its list: item is what it looks at next.
def atexitLoop (program : Program Func Arg) : Nat → Exit Func Arg → List (Exitcmd Func Arg) → List (Event Func Arg) →
    Option (Exit Func Arg × List (Event Func Arg))
  | 0, _, _, _ => none
  | _ + 1, exit, [], events => some (exit, events)
  | fuel + 1, exit, item :: next, events =>
      let exit := { exit with atexitq := next }
      let made := program events (.plain item.func)
      let exit := exit.registerAll made
      -- item = g_exit.on_exitq
      atexitLoop program fuel exit exit.on_exitq (events ++ [⟨.plain item.func, made⟩])

def onExitLoop (program : Program Func Arg) (status : Int) : Nat → Exit Func Arg → List (Exitcmd Func Arg) → List (Event Func Arg) →
    Option (Exit Func Arg × List (Event Func Arg))
  | 0, _, _, _ => none
  | _ + 1, exit, [], events => some (exit, events)
  | fuel + 1, exit, item :: next, events =>
      let exit := { exit with on_exitq := next }
      let made := program events (.withstatus item.func status item.arg)
      let exit := exit.registerAll made
      onExitLoop program status fuel exit exit.on_exitq (events ++ [⟨.withstatus item.func status item.arg, made⟩])

-- __atexit and __on_exit as __exit calls them.
def exitFuncs (program : Program Func Arg) (status : Int) (fuel : Nat) (exit : Exit Func Arg) :
    Option (Exit Func Arg × List (Event Func Arg)) := do
  let (exit, events) ← atexitLoop program fuel exit exit.atexitq []
  onExitLoop program status fuel exit exit.on_exitq events

def Registers.plain? : Registers Func Arg → Option (Exitcmd Func Arg)
  | .atexit func => some ⟨func, none⟩
  | .on_exit _ _ => none

def Registers.withstatus? : Registers Func Arg → Option (Exitcmd Func Arg)
  | .atexit _ => none
  | .on_exit func arg => some ⟨func, arg⟩

def Call.item (status : Int) (item : Exitcmd Func Arg) : Call Func Arg := .withstatus item.func status item.arg

-- What a run registers, in the order in which it does.
def madeBy (events : List (Event Func Arg)) : List (Registers Func Arg) := events.flatMap Event.registers

theorem register_all (exit : Exit Func Arg) (made : List (Registers Func Arg)) :
    (exit.registerAll made).on_exitq = (made.filterMap Registers.withstatus?).reverse ++ exit.on_exitq ∧
      (exit.registerAll made).atexitq = (made.filterMap Registers.plain?).reverse ++ exit.atexitq := by
  induction made generalizing exit with
  | nil => exact ⟨rfl, rfl⟩
  | cons one made ih =>
      obtain ⟨first, second⟩ := ih (exit.register one)
      cases one with
      | atexit func => exact ⟨first, by simpa [Exit.register, Exit.registerAll, Registers.plain?] using second⟩
      | on_exit func arg => exact ⟨by simpa [Exit.register, Exit.registerAll, Registers.withstatus?] using first, second⟩

-- Once the loop of __atexit looks at an item of on_exitq it never sees an empty list
-- again: a handler adds to that list and __atexit takes nothing from it.
theorem atexit_loop_stuck (program : Program Func Arg) (fuel : Nat) (exit : Exit Func Arg) (events : List (Event Func Arg))
    (item : Exitcmd Func Arg) (next : List (Exitcmd Func Arg)) (waiting : exit.on_exitq = item :: next) :
    atexitLoop program fuel exit exit.on_exitq events = none := by
  induction fuel generalizing exit events item next with
  | zero => rfl
  | succ fuel ih =>
      rw [waiting, atexitLoop]
      obtain ⟨grown, -⟩ := register_all { exit with atexitq := next } (program events (.plain item.func))
      dsimp only at grown
      cases more : ((program events (.plain item.func)).filterMap Registers.withstatus?).reverse with
      | nil => exact ih _ _ item next (by rw [grown, more, waiting]; rfl)
      | cons other others => exact ih _ _ other (others ++ item :: next) (by rw [grown, more, waiting]; rfl)

-- The state and the events behind the first handler that __atexit calls.
def afterFirst (program : Program Func Arg) (exit : Exit Func Arg) (first : Exitcmd Func Arg) (others : List (Exitcmd Func Arg)) : Exit Func Arg :=
  ({ exit with atexitq := others } : Exit Func Arg).registerAll (program [] (.plain first.func))

def firstEvent (program : Program Func Arg) (first : Exitcmd Func Arg) : Event Func Arg := ⟨.plain first.func, program [] (.plain first.func)⟩

-- What the loop of __on_exit has called when it comes to an end: every handler that was
-- on the list, and every one that was added meanwhile, once.
theorem on_exit_loop_calls (program : Program Func Arg) (status : Int) (fuel : Nat) (exit final : Exit Func Arg)
    (events all : List (Event Func Arg)) (ends : onExitLoop program status fuel exit exit.on_exitq events = some (final, all)) :
    ∃ later, all = events ++ later ∧ final.on_exitq = [] ∧
      final.atexitq = ((madeBy later).filterMap Registers.plain?).reverse ++ exit.atexitq ∧
      (later.map Event.call).Perm ((exit.on_exitq ++ (madeBy later).filterMap Registers.withstatus?).map (Call.item status)) ∧
      ((madeBy later).filterMap Registers.withstatus? = [] → later.map Event.call = exit.on_exitq.map (Call.item status)) := by
  induction fuel generalizing exit events with
  | zero => cases ends
  | succ fuel ih =>
      cases waiting : exit.on_exitq with
      | nil =>
          rw [waiting, onExitLoop] at ends
          cases ends
          exact ⟨[], by simp, waiting, by simp [madeBy], by simp [madeBy], by simp⟩
      | cons item next =>
          rw [waiting, onExitLoop] at ends
          obtain ⟨later, split, empty, plain, calls, quiet⟩ := ih _ _ ends
          obtain ⟨grown, added⟩ := register_all { exit with on_exitq := next } (program events (.withstatus item.func status item.arg))
          dsimp only at grown added
          rw [added] at plain
          rw [grown] at calls quiet
          let event : Event Func Arg := ⟨.withstatus item.func status item.arg, program events (.withstatus item.func status item.arg)⟩
          have made : madeBy (event :: later) = event.registers ++ madeBy later := by simp [madeBy]
          refine ⟨event :: later, by rw [split, List.append_assoc]; rfl, empty, ?_, ?_, ?_⟩
          · rw [made, plain, List.filterMap_append, List.reverse_append, List.append_assoc]
          · rw [made, List.filterMap_append, List.map_cons, List.cons_append, List.map_cons]
            refine List.Perm.cons _ (calls.trans (List.Perm.map _ ?_))
            rw [← List.append_assoc]
            apply List.Perm.append_right
            exact ((List.reverse_perm _).append_right next).trans List.perm_append_comm
          · intro none
            rw [made, List.filterMap_append, List.append_eq_nil_iff] at none
            rw [List.map_cons, List.map_cons, quiet none.2, show program events (.withstatus item.func status item.arg) = event.registers from rfl,
              none.1]
            rfl

-- __exit calls the newest handler that atexit was given and none of the others, and it
-- returns from its handlers exactly when no on_exit handler is registered by then.
-- Without an atexit handler it calls every on_exit handler once.
theorem exit_funcs_runs (program : Program Func Arg) (status : Int) (exit : Exit Func Arg) :
    (∀ first others, exit.atexitq = first :: others → (afterFirst program exit first others).on_exitq = [] →
      ∀ fuel, exitFuncs program status (fuel + 2) exit = some (afterFirst program exit first others, [firstEvent program first])) ∧
    (∀ first others, exit.atexitq = first :: others → (afterFirst program exit first others).on_exitq ≠ [] →
      ∀ fuel, exitFuncs program status fuel exit = none) ∧
    (exit.atexitq = [] → ∀ fuel final events, exitFuncs program status fuel exit = some (final, events) →
      final.on_exitq = [] ∧ final.atexitq = ((madeBy events).filterMap Registers.plain?).reverse ∧
      (events.map Event.call).Perm ((exit.on_exitq ++ (madeBy events).filterMap Registers.withstatus?).map (Call.item status)) ∧
      ((madeBy events).filterMap Registers.withstatus? = [] → events.map Event.call = exit.on_exitq.map (Call.item status))) := by
  refine ⟨?_, ?_, ?_⟩
  · intro first others waiting none fuel
    have left : atexitLoop program (fuel + 2) exit exit.atexitq [] =
        some (afterFirst program exit first others, [firstEvent program first]) := by
      rw [waiting, atexitLoop]
      rw [show (({ exit with atexitq := others } : Exit Func Arg).registerAll (program [] (.plain first.func))).on_exitq = [] from none, atexitLoop]
      rfl
    simp only [exitFuncs, left, bind, Option.bind, none]
    rfl
  · intro first others waiting some fuel
    have stuck : atexitLoop program fuel exit exit.atexitq [] = none := by
      cases fuel with
      | zero => rfl
      | succ fuel =>
          obtain ⟨item, next, there⟩ := List.exists_cons_of_ne_nil some
          rw [waiting, atexitLoop]
          exact atexit_loop_stuck program fuel _ _ item next there
    simp only [exitFuncs, stuck, bind, Option.bind]
  · intro nothing fuel final events ends
    cases fuel with
    | zero => cases ends
    | succ fuel =>
        rw [exitFuncs, nothing, atexitLoop] at ends
        obtain ⟨later, split, empty, plain, calls, quiet⟩ := on_exit_loop_calls program status (fuel + 1) exit final [] events ends
        rw [List.nil_append] at split
        subst split
        rw [nothing, List.append_nil] at plain
        exact ⟨empty, plain, calls, quiet⟩

end OsZero.Libc.Atexit

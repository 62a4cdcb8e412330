import OsZero.Queue.Stackstep

set_option autoImplicit false

namespace OsZero.Queue.Markbit

open Runs Threads

variable {Thread Item : Type} [DecidableEq Thread] [DecidableEq Item]

def Invariant (world : World Thread (Casqueue Item) (Pc Item)) : Prop := ∃ lock items owner, Inv world lock items owner

section Outside

variable (world : World Thread (Casqueue Item) (Pc Item)) (lock : Option Thread) (items : List Item) (owner : Item → Owner Thread)
  (inv : Inv world lock items owner) (thread : Thread)

include inv

theorem inv_passed (queue : Casqueue Item) (pc : Pc Item) (before : (world.own thread).inside = false) (outside : pc.inside = false)
    (ptr : queue.ptr = world.shared.ptr) (tail : queue.tail = world.shared.tail) (next : queue.next = world.shared.next)
    (fits : pc.Fits queue) (pushing : pc.pushing = (world.own thread).pushing) (popping : pc.popping = (world.own thread).popping)
    (counted : Counted queue owner) : Inv (world.put thread (queue, pc)) lock items owner := by
  refine inv_outside world lock items owner inv thread queue pc before outside ptr tail next fits owner ?_ ?_ (fun item changed => absurd rfl changed) counted
  · rw [pushing]
    exact inv.pushing thread
  · rw [popping]
    exact inv.popping thread

theorem ret_step (item : Option Item) (here : world.own thread = .ret item) :
    ∃ owned, Inv (world.put thread (popstep world.shared (.ret item))) lock items owned := by
  have before : (world.own thread).inside = false := by rw [here]; rfl
  cases item with
  | none =>
      exact ⟨owner, inv_passed world lock items owner inv thread world.shared .out before rfl rfl rfl rfl trivial (by rw [here]; rfl) (by rw [here]; rfl)
        inv.counted⟩
  | some item =>
      have pops : owner item = .pop thread := (inv.popping thread item).mpr (by rw [here]; rfl)
      have held := pushes_nothing world lock items owner inv thread (by rw [here]; rfl)
      have empty : ∀ other, other ≠ item → owner other ≠ .pop thread := fun other different popping => by
        have same := (inv.popping thread other).mp popping
        rw [here] at same
        exact different (Option.some.inj same).symm
      refine ⟨Function.update owner item .client, ?_⟩
      refine inv_outside world lock items owner inv thread (world.shared.hand (some item)) .out before rfl rfl rfl rfl trivial
        (Function.update owner item .client) ?_ ?_ ?_ ⟨?_, ?_⟩
      · intro other
        by_cases same : other = item
        · simp [same, Pc.pushing]
        · simp [same, Pc.pushing, held other]
      · intro other
        by_cases same : other = item
        · simp [same, Pc.popping]
        · simp [same, Pc.popping, empty other same]
      · intro other changed
        by_cases same : other = item
        · simp [same, pops]
        · simp [same] at changed
      · intro other
        by_cases same : other = item
        · simpa [same, pops, Owner.begun, Casqueue.hand] using inv.counted.begun item
        · simpa [same, Casqueue.hand] using inv.counted.begun other
      · intro other
        by_cases same : other = item
        · simpa [same, pops, Owner.pushed, Casqueue.hand] using inv.counted.pushed item
        · simpa [same, Casqueue.hand] using inv.counted.pushed other

theorem call_step (made : Call Item) (here : world.own thread = .out) : ∃ owned, Inv (world.put thread (call world.shared made)) lock items owned := by
  have before : (world.own thread).inside = false := by rw [here]; rfl
  cases made with
  | casqueuepop =>
      exact ⟨owner, inv_passed world lock items owner inv thread world.shared (.popptr 8) before rfl rfl rfl rfl trivial (by rw [here]; rfl)
        (by rw [here]; rfl) inv.counted⟩
  | casqueuepush item =>
      rw [call]
      by_cases free : world.shared.begun item = world.shared.popped item
      · rw [if_pos free]
        have counted := inv.counted.begun item
        have client : owner item = .client := by
          rw [free] at counted
          cases owned : owner item with
          | client => rfl
          | _ =>
              rw [owned] at counted
              simp [Owner.begun] at counted
        have held := pushes_nothing world lock items owner inv thread (by rw [here]; rfl)
        have empty := pops_nothing world lock items owner inv thread (by rw [here]; rfl)
        refine ⟨Function.update owner item (.push thread), ?_⟩
        refine inv_outside world lock items owner inv thread (world.shared.begin item) (.noprev item) before rfl rfl rfl rfl trivial
          (Function.update owner item (.push thread)) ?_ ?_ ?_ ⟨?_, ?_⟩
        · intro other
          by_cases same : other = item
          · simp [same, Pc.pushing]
          · simp [same, Pc.pushing, held other, Ne.symm same]
        · intro other
          by_cases same : other = item
          · simp [same, Pc.popping]
          · simp [same, Pc.popping, empty other]
        · intro other changed
          by_cases same : other = item
          · simp [same, client]
          · simp [same] at changed
        · intro other
          by_cases same : other = item
          · simpa [same, client, Owner.begun, Casqueue.begin] using inv.counted.begun item
          · simpa [same, Casqueue.begin] using inv.counted.begun other
        · intro other
          by_cases same : other = item
          · simpa [same, client, Owner.pushed, Casqueue.begin] using inv.counted.pushed item
          · simpa [same, Casqueue.begin] using inv.counted.pushed other
      · rw [if_neg free]
        refine ⟨owner, ?_⟩
        rw [← here, put_same]
        exact inv

theorem push_outside (pc : Pc Item) (here : world.own thread = pc) (pushes : pc.pushing ≠ none) (outside : pc.inside = false)
    (sound : ∀ item, pc = .setptr item → world.shared.ptr.mark = false → (world.shared.next item).ptr = world.shared.ptr.ptr) :
    ∃ owned locked, Inv (world.put thread (pushstep world.shared pc)) locked items owned := by
  have before : (world.own thread).inside = false := by rw [here]; exact outside
  cases pc with
  | noprev item =>
      exact ⟨owner, lock, inv_passed world lock items owner inv thread (world.shared.setprev item none) (.setptr item) before rfl rfl rfl rfl trivial
        (by rw [here]; rfl) (by rw [here]; rfl) ⟨inv.counted.begun, inv.counted.pushed⟩⟩
  | setptr item =>
      cases busy : world.shared.ptr.mark with
      | true =>
          refine ⟨owner, lock, ?_⟩
          rw [pushstep, setbit_busy _ _ _ _ _ busy, ← here, put_same]
          exact inv
      | false => exact ⟨owner, some thread, push_enters world lock items owner inv thread item here busy (sound item rfl busy)⟩
  | out => exact absurd rfl pushes
  | popptr nspin => exact absurd rfl pushes
  | poploop nspin item => exact absurd rfl pushes
  | ret item => exact absurd rfl pushes
  | _ => cases outside

theorem pop_outside (pc : Pc Item) (here : world.own thread = pc) (pops : pc.pushing = none) (outside : pc.inside = false) (called : pc ≠ .out) :
    Invariant (world.put thread (popstep world.shared pc)) := by
  have before : (world.own thread).inside = false := by rw [here]; exact outside
  have passed := fun next quiet pushing popping fits =>
    inv_passed world lock items owner inv thread world.shared next before quiet rfl rfl rfl fits pushing popping inv.counted
  cases pc with
  | popptr nspin =>
      cases busy : world.shared.ptr.mark with
      | true =>
          rw [popstep, setbit_busy _ _ _ _ _ busy]
          exact ⟨lock, items, owner, passed (.poploop nspin none) rfl (by rw [here]; rfl) (by rw [here]; rfl) trivial⟩
      | false => exact ⟨some thread, items, owner, pop_enters world lock items owner inv thread nspin here busy⟩
  | poploop nspin item =>
      refine ⟨lock, items, owner, ?_⟩
      cases item with
      | none =>
          rw [popstep, if_pos rfl, spin]
          split_ifs
          · exact passed (.ret none) rfl (by rw [here]; rfl) (by rw [here]; rfl) trivial
          · exact passed (.popptr (nspin - 1)) rfl (by rw [here]; rfl) (by rw [here]; rfl) trivial
      | some item =>
          rw [popstep, if_neg (by simp)]
          exact passed (.ret (some item)) rfl (by rw [here]; rfl) (by rw [here]; rfl) trivial
  | ret item =>
      obtain ⟨owned, kept⟩ := ret_step world lock items owner inv thread item here
      exact ⟨lock, items, owned, kept⟩
  | out => exact absurd rfl called
  | noprev item => cases pops
  | setptr item => cases pops
  | _ => cases outside

end Outside

omit [DecidableEq Thread] in
theorem push_step (pc : Pc Item) (queue : Casqueue Item) (op : Thread × Call Item) (item : Item) (pushes : pc.pushing = some item) :
    casqueuestep op queue pc = pushstep queue pc := by
  have inside : pc ≠ .out := by
    rintro rfl
    cases pushes
  rw [casqueuestep, if_neg inside, if_pos (by rw [pushes]; simp)]

omit [DecidableEq Thread] in
theorem pop_step (pc : Pc Item) (queue : Casqueue Item) (op : Thread × Call Item) (inside : pc ≠ .out) (pops : pc.pushing = none) :
    casqueuestep op queue pc = popstep queue pc := by
  rw [casqueuestep, if_neg inside, if_neg (by rw [pops]; simp)]

-- What each step keeps.
theorem inv_step (world : World Thread (Casqueue Item) (Pc Item)) (op : Thread × Call Item) (invariant : Invariant world) (sound : Sound world op) :
    Invariant (after Prod.fst casqueuestep world op) := by
  obtain ⟨lock, items, owner, inv⟩ := invariant
  obtain ⟨thread, made⟩ := op
  unfold after
  dsimp only
  by_cases out : world.own thread = .out
  · rw [out, casqueuestep, if_pos rfl]
    obtain ⟨owned, kept⟩ := call_step world lock items owner inv thread made out
    exact ⟨lock, items, owned, kept⟩
  · cases pushes : (world.own thread).pushing with
    | some item =>
        rw [push_step _ _ _ item pushes]
        cases inside : (world.own thread).inside with
        | true =>
            by_cases last : world.own thread = .putptr item
            · rw [last]
              obtain ⟨owned, kept⟩ := push_puts world lock items owner inv thread item last
              exact ⟨none, item :: items, owned, kept⟩
            · refine ⟨lock, items, owner, push_held world lock items owner inv thread _ rfl (by rw [pushes]; simp) inside fun other same => ?_⟩
              rw [same] at pushes
              cases pushes
              exact last same
        | false =>
            obtain ⟨owned, locked, kept⟩ := push_outside world lock items owner inv thread _ rfl (by rw [pushes]; simp) inside fun item => sound item
            exact ⟨locked, items, owned, kept⟩
    | none =>
        rw [pop_step _ _ _ out pushes]
        cases inside : (world.own thread).inside with
        | true =>
            by_cases takes : ∃ nspin head next, world.own thread = .putnext nspin head next
            · obtain ⟨nspin, head, next, here⟩ := takes
              rw [here]
              obtain ⟨left, owned, kept⟩ := pop_takes world lock items owner inv thread nspin head next here
              exact ⟨lock, left, owned, kept⟩
            · by_cases leaves : ∃ nspin item, world.own thread = .popclrptr nspin item
              · obtain ⟨nspin, item, here⟩ := leaves
                rw [here]
                exact ⟨none, items, owner, pop_leaves world lock items owner inv thread nspin item here⟩
              · exact ⟨lock, items, owner, pop_held world lock items owner inv thread _ rfl pushes inside
                  (fun nspin head next here => takes ⟨nspin, head, next, here⟩) fun nspin item here => leaves ⟨nspin, item, here⟩⟩
        | false => exact pop_outside world lock items owner inv thread _ rfl pushes inside out

end OsZero.Queue.Markbit

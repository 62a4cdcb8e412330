import OsZero.Queue.Stacked

set_option autoImplicit false

namespace OsZero.Queue.Markbit

open Runs Threads

variable {Thread Item : Type} [DecidableEq Thread] [DecidableEq Item]

section Next

variable (world : World Thread (Casqueue Item) (Pc Item)) (lock : Option Thread) (items : List Item) (owner : Item → Owner Thread)
  (inv : Inv world lock items owner) (thread : Thread)

include inv

-- A step of the thread that has the queue, takes it or leaves it.
theorem inv_next (queue : Casqueue Item) (pc : Pc Item) (left : List Item) (owned : Item → Owner Thread)
    (alone : ∀ other, other ≠ thread → (world.own other).inside = false) (mark : queue.ptr.mark = pc.inside)
    (clear : pc.inside = false → Marked queue false none none) (fits : pc.Fits queue) (linked : Linked queue.next queue.ptr.ptr left)
    (nodup : left.Nodup) (pushing : ∀ item, owned item = .push thread ↔ pc.pushing = some item)
    (popping : ∀ item, owned item = .pop thread ↔ pc.popping = some item)
    (others : ∀ other, other ≠ thread → ∀ item, (owned item = .push other ↔ owner item = .push other) ∧
      (owned item = .pop other ↔ owner item = .pop other))
    (stored : ∀ item, owned item = .queue ↔ item ∈ left) (counted : Counted queue owned) :
    Inv (world.put thread (queue, pc)) (if pc.inside then some thread else none) left owned := by
  refine ⟨?_, ?_, ?_, ?_, linked, nodup, ?_, ?_, stored, counted⟩
  · refine put_all world thread (queue, pc) (fun other pc' => pc'.inside = true ↔ (if pc.inside then some thread else none) = some other) ?_ ?_
    · cases pc.inside <;> simp
    · intro other different
      rw [alone other different]
      cases pc.inside <;> simp [Ne.symm different]
  · rw [put_shared, mark]
    cases pc.inside <;> rfl
  · intro free
    apply clear
    cases inside : pc.inside with
    | false => rfl
    | true =>
        rw [inside] at free
        cases free
  · exact put_all world thread (queue, pc) (fun _ pc => pc.Fits queue) fits
      fun other different => fits_outside _ _ _ (alone other different) (inv.fits other)
  · exact put_all world thread (queue, pc) (fun other pc => ∀ item, owned item = .push other ↔ pc.pushing = some item) pushing
      fun other different item => (others other different item).1.trans (inv.pushing other item)
  · exact put_all world thread (queue, pc) (fun other pc => ∀ item, owned item = .pop other ↔ pc.popping = some item) popping
      fun other different item => (others other different item).2.trans (inv.popping other item)

-- What a step leaves alone that only marks words, or writes prev.
structure Kept (before after : Casqueue Item) : Prop where
  ptr : after.ptr.ptr = before.ptr.ptr
  links : ∀ item, (after.next item).ptr = (before.next item).ptr
  begun : after.begun = before.begun
  pushed : after.pushed = before.pushed
  popped : after.popped = before.popped

theorem inv_kept (queue : Casqueue Item) (pc : Pc Item) (alone : ∀ other, other ≠ thread → (world.own other).inside = false)
    (kept : Kept world.shared queue) (mark : queue.ptr.mark = pc.inside) (clear : pc.inside = false → Marked queue false none none)
    (fits : pc.Fits queue) (pushing : pc.pushing = (world.own thread).pushing) (popping : pc.popping = (world.own thread).popping) :
    Inv (world.put thread (queue, pc)) (if pc.inside then some thread else none) items owner := by
  refine inv_next world lock items owner inv thread queue pc items owner alone mark clear fits ?_ inv.nodup ?_ ?_ (fun _ _ _ => ⟨Iff.rfl, Iff.rfl⟩)
    inv.stored ⟨?_, ?_⟩
  · rw [kept.ptr]
    exact linked_same _ _ items kept.links _ inv.linked
  · rw [pushing]
    exact inv.pushing thread
  · rw [popping]
    exact inv.popping thread
  · rw [kept.begun, kept.popped]
    exact inv.counted.begun
  · rw [kept.pushed, kept.popped]
    exact inv.counted.pushed

end Next

theorem kept_marknext (queue : Casqueue Item) (item : Item) (mark : Bool) : Kept queue (queue.marknext item mark) :=
  ⟨rfl, marknext_ptr queue item mark, rfl, rfl, rfl⟩

omit [DecidableEq Item] in
theorem setbit_free (busy : Bool) (queue marked : Casqueue Item) (taken held : Pc Item) (free : busy = false) :
    setbit busy queue marked taken held = (marked, taken) := by
  rw [free]
  rfl

omit [DecidableEq Item] in
theorem setbit_busy (busy : Bool) (queue marked : Casqueue Item) (taken held : Pc Item) (held' : busy = true) :
    setbit busy queue marked taken held = (queue, held) := by
  rw [held']
  rfl

omit [DecidableEq Item] in
theorem kept_same (queue : Casqueue Item) : Kept queue queue := ⟨rfl, fun _ => rfl, rfl, rfl, rfl⟩

omit [DecidableEq Item] in
theorem kept_marktail (queue : Casqueue Item) (mark : Bool) : Kept queue (queue.marktail mark) := ⟨rfl, fun _ => rfl, rfl, rfl, rfl⟩

theorem kept_setprev (queue : Casqueue Item) (item : Item) (prev : Option Item) : Kept queue (queue.setprev item prev) :=
  ⟨rfl, fun _ => rfl, rfl, rfl, rfl⟩

omit [DecidableEq Item] in
theorem linked_apart (next : Item → Word Item) (first : Option Item) (head second : Item) (items : List Item) (nodup : items.Nodup)
    (linked : Linked next first items) (top : first = some head) (link : (next head).ptr = some second) : head ≠ second := by
  rintro rfl
  cases items with
  | nil =>
      rw [Linked, top] at linked
      cases linked
  | cons item items =>
      obtain ⟨here, rest⟩ : first = some item ∧ Linked next (next item).ptr items := linked
      rw [top] at here
      obtain rfl := Option.some.inj here
      rw [link] at rest
      cases items with
      | nil => cases rest
      | cons other items =>
          obtain rfl := Option.some.inj rest.1
          exact (List.nodup_cons.mp nodup).1 List.mem_cons_self

section Held

variable (world : World Thread (Casqueue Item) (Pc Item)) (lock : Option Thread) (items : List Item) (owner : Item → Owner Thread)
  (inv : Inv world lock items owner) (thread : Thread)

include inv

theorem inv_held (queue : Casqueue Item) (pc next : Pc Item) (here : world.own thread = pc) (inside : pc.inside = true) (stays : next.inside = true)
    (kept : Kept world.shared queue) (mark : queue.ptr.mark = world.shared.ptr.mark) (fits : next.Fits queue) (pushing : next.pushing = pc.pushing)
    (popping : next.popping = pc.popping) : Inv (world.put thread (queue, next)) lock items owner := by
  have mine := lock_mine world lock items owner inv thread (by rw [here]; exact inside)
  have locked : world.shared.ptr.mark = true := by
    rw [inv.mark, mine]
    rfl
  have after := inv_kept world lock items owner inv thread queue next (others_outside world lock items owner inv thread (Or.inl mine)) kept
    (by rw [mark, locked, stays]) (fun outside => by rw [stays] at outside; cases outside) fits (by rw [here]; exact pushing) (by rw [here]; exact popping)
  rwa [stays, if_pos rfl, ← mine] at after

-- The steps of a push that has the queue, up to the last.
theorem push_held (pc : Pc Item) (here : world.own thread = pc) (pushes : pc.pushing ≠ none) (inside : pc.inside = true)
    (stays : ∀ item, pc ≠ .putptr item) : Inv (world.put thread (pushstep world.shared pc)) lock items owner := by
  have fits := inv.fits thread
  rw [here] at fits
  have held := inv_held world lock items owner inv thread
  cases pc with
  | settail item =>
      rw [pushstep, setbit_free _ _ _ _ _ fits.1.1]
      exact held _ _ (.gethead item) here rfl rfl (kept_marktail _ _) rfl ⟨marktail_marked _ _ _ _ true fits.1, fits.2⟩ rfl rfl
  | gethead item =>
      cases top : world.shared.ptr.ptr with
      | some head =>
          rw [pushstep, top]
          exact held _ _ (.setnext item head) here rfl rfl (kept_same _) rfl ⟨fits.1, fits.2, top⟩ rfl rfl
      | none =>
          rw [pushstep, top]
          exact held _ _ (.puttail item) here rfl rfl (kept_same _) rfl fits rfl rfl
  | setnext item head =>
      rw [pushstep, setbit_free _ _ _ _ _ (marked_free _ _ _ _ head fits.1 (by simp) (by simp))]
      exact held _ _ (.headprev item head) here rfl rfl (kept_marknext _ _ _) rfl
        ⟨markfirst_marked _ _ head fits.1, (marknext_ptr _ _ _ _).trans fits.2.1⟩ rfl rfl
  | headprev item head => exact held _ _ (.clrnext item head) here rfl rfl (kept_setprev _ _ _) rfl fits rfl rfl
  | clrnext item head =>
      exact held _ _ (.clrtail item) here rfl rfl (kept_marknext _ _ _) rfl
        ⟨clearfirst_marked _ _ head fits.1, (marknext_ptr _ _ _ _).trans fits.2⟩ rfl rfl
  | clrtail item => exact held _ _ (.putptr item) here rfl rfl (kept_marktail _ _) rfl ⟨marktail_marked _ _ _ _ false fits.1, fits.2⟩ rfl rfl
  | puttail item =>
      exact held _ _ (.putptr item) here rfl rfl ⟨rfl, fun _ => rfl, rfl, rfl, rfl⟩ rfl ⟨⟨rfl, fits.1.2⟩, fits.2⟩ rfl rfl
  | putptr item => exact absurd rfl (stays item)
  | undotail item => exact fits.elim
  | undoptr item => exact fits.elim
  | noprev item => cases inside
  | setptr item => cases inside
  | _ => exact absurd rfl pushes

-- The steps of a pop that has the queue, but for the write of ptr and the last.
theorem pop_held (pc : Pc Item) (here : world.own thread = pc) (pops : pc.pushing = none) (inside : pc.inside = true)
    (writes : ∀ nspin head next, pc ≠ .putnext nspin head next) (stays : ∀ nspin item, pc ≠ .popclrptr nspin item) :
    Inv (world.put thread (popstep world.shared pc)) lock items owner := by
  have fits := inv.fits thread
  rw [here] at fits
  have held := inv_held world lock items owner inv thread
  cases pc with
  | poptail nspin =>
      rw [popstep, setbit_free _ _ _ _ _ fits.1]
      exact held _ _ (.pophead nspin) here rfl rfl (kept_marktail _ _) rfl (marktail_marked _ _ _ _ true fits) rfl rfl
  | pophead nspin =>
      cases top : world.shared.ptr.ptr with
      | some head =>
          rw [popstep, top]
          exact held _ _ (.popnext nspin head) here rfl rfl (kept_same _) rfl ⟨fits, top⟩ rfl rfl
      | none =>
          rw [popstep, top]
          exact held _ _ (.popclrtail nspin none) here rfl rfl (kept_same _) rfl fits rfl rfl
  | popnext nspin head =>
      rw [popstep, setbit_free _ _ _ _ _ (marked_free _ _ _ _ head fits.1 (by simp) (by simp))]
      exact held _ _ (.readnext nspin head) here rfl rfl (kept_marknext _ _ _) rfl ⟨markfirst_marked _ _ head fits.1, fits.2⟩ rfl rfl
  | readnext nspin head =>
      cases link : (world.shared.next head).ptr with
      | some next =>
          rw [popstep, link]
          exact held _ _ (.marknext nspin head next) here rfl rfl (kept_same _) rfl ⟨fits.1, fits.2, link⟩ rfl rfl
      | none =>
          rw [popstep, link]
          exact held _ _ (.getnext nspin head) here rfl rfl (kept_same _) rfl fits rfl rfl
  | marknext nspin head next =>
      have apart := linked_apart _ _ head next items inv.nodup inv.linked fits.2.1 fits.2.2
      rw [popstep, setbit_free _ _ _ _ _ (marked_free _ _ _ _ next fits.1 (by simp [Ne.symm apart]) (by simp))]
      exact held _ _ (.nextprev nspin head next) here rfl rfl (kept_marknext _ _ _) rfl ⟨marksecond_marked _ _ head next fits.1, fits.2.1, apart⟩ rfl rfl
  | nextprev nspin head next => exact held _ _ (.unmark nspin head next) here rfl rfl (kept_setprev _ _ _) rfl fits rfl rfl
  | unmark nspin head next =>
      exact held _ _ (.getnext nspin head) here rfl rfl (kept_marknext _ _ _) rfl ⟨clearsecond_marked _ _ head next fits.2.2 fits.1, fits.2.1⟩ rfl rfl
  | getnext nspin head => exact held _ _ (.putnext nspin head (world.shared.next head)) here rfl rfl (kept_same _) rfl ⟨fits.1, fits.2, rfl⟩ rfl rfl
  | putnext nspin head next => exact absurd rfl (writes nspin head next)
  | popclrnext nspin head item =>
      exact held _ _ (.popclrtail nspin item) here rfl rfl (kept_marknext _ _ _) rfl (clearfirst_marked _ _ head fits.1) rfl rfl
  | popclrtail nspin item => exact held _ _ (.popclrptr nspin item) here rfl rfl (kept_marktail _ _) rfl (marktail_marked _ _ _ _ false fits) rfl rfl
  | popclrptr nspin item => exact absurd rfl (stays nspin item)
  | busyhead nspin head => exact fits.elim
  | busyptr nspin head => exact fits.elim
  | busyspin nspin head => exact fits.elim
  | busynext nspin head => exact fits.elim
  | nextptr nspin head => exact fits.elim
  | nextspin nspin head => exact fits.elim
  | popptr nspin => cases inside
  | poploop nspin item => cases inside
  | ret item => cases inside
  | out => cases inside
  | _ => cases pops

omit [DecidableEq Thread] in
theorem pushes_nothing (idle : (world.own thread).pushing = none) : ∀ item, owner item ≠ .push thread := fun item pushes => by
  have held := (inv.pushing thread item).mp pushes
  rw [idle] at held
  cases held

omit [DecidableEq Thread] in
theorem pops_nothing (idle : (world.own thread).popping = none) : ∀ item, owner item ≠ .pop thread := fun item pops => by
  have held := (inv.popping thread item).mp pops
  rw [idle] at held
  cases held

-- The write of ptr takes the head off the queue.
theorem pop_takes (nspin : Nat) (head : Item) (next : Word Item) (here : world.own thread = .putnext nspin head next) :
    ∃ left owned, Inv (world.put thread (popstep world.shared (.putnext nspin head next))) lock left owned := by
  have fits := inv.fits thread
  rw [here] at fits
  obtain ⟨marked, top, rfl⟩ := fits
  have mine := lock_mine world lock items owner inv thread (by rw [here]; rfl)
  have linked := inv.linked
  rw [top] at linked
  cases items with
  | nil => cases linked
  | cons first left =>
      obtain rfl : head = first := Option.some.inj linked.1
      have nodup := List.nodup_cons.mp inv.nodup
      have queued : owner head = .queue := (inv.stored head).mpr List.mem_cons_self
      have held := pushes_nothing world lock (head :: left) owner inv thread (by rw [here]; rfl)
      have empty := pops_nothing world lock (head :: left) owner inv thread (by rw [here]; rfl)
      refine ⟨left, Function.update owner head (.pop thread), ?_⟩
      have after := inv_next world lock (head :: left) owner inv thread { world.shared with ptr := world.shared.next head }
        (.popclrnext nspin head (some head)) left (Function.update owner head (.pop thread))
        (others_outside world lock (head :: left) owner inv thread (Or.inl mine)) (by rw [marked.2 head]; simp [Pc.inside]) (fun outside => by cases outside)
        ⟨marked, rfl⟩ linked.2 nodup.2 ?_ ?_ ?_ ?_ ⟨?_, ?_⟩
      · rw [mine]
        exact after
      · intro item
        by_cases same : item = head
        · simp [same, Pc.pushing]
        · simp [same, Pc.pushing, held item]
      · intro item
        by_cases same : item = head
        · simp [same, Pc.popping]
        · simp [same, Pc.popping, empty item, Ne.symm same]
      · intro other different item
        by_cases same : item = head
        · simp [same, queued, Ne.symm different]
        · simp [same]
      · intro item
        by_cases same : item = head
        · simp [same, nodup.1]
        · simp [same, inv.stored item]
      · intro item
        by_cases same : item = head
        · simpa [same, queued, Owner.begun] using inv.counted.begun head
        · simpa [same] using inv.counted.begun item
      · intro item
        by_cases same : item = head
        · simpa [same, queued, Owner.pushed] using inv.counted.pushed head
        · simpa [same] using inv.counted.pushed item

-- The last write of a push puts its item before the head and leaves the queue.
theorem push_puts (item : Item) (here : world.own thread = .putptr item) :
    ∃ owned, Inv (world.put thread (pushstep world.shared (.putptr item))) none (item :: items) owned := by
  have fits := inv.fits thread
  rw [here] at fits
  obtain ⟨marked, link⟩ := fits
  have mine := lock_mine world lock items owner inv thread (by rw [here]; rfl)
  have pushes : owner item = .push thread := (inv.pushing thread item).mpr (by rw [here]; rfl)
  have absent : item ∉ items := fun inside => by
    have queued := (inv.stored item).mpr inside
    rw [pushes] at queued
    cases queued
  have held : ∀ other, other ≠ item → owner other ≠ .push thread := fun other different pushing => by
    have same := (inv.pushing thread other).mp pushing
    rw [here] at same
    exact different (Option.some.inj same).symm
  have empty := pops_nothing world lock items owner inv thread (by rw [here]; rfl)
  refine ⟨Function.update owner item .queue, ?_⟩
  refine inv_next world lock items owner inv thread (world.shared.finish item) .out (item :: items) (Function.update owner item .queue)
    (others_outside world lock items owner inv thread (Or.inl mine)) rfl (fun _ => marked) trivial ⟨rfl, ?_⟩
    (List.nodup_cons.mpr ⟨absent, inv.nodup⟩) ?_ ?_ ?_ ?_ ⟨?_, ?_⟩
  · show Linked world.shared.next (world.shared.next item).ptr items
    rw [link]
    exact inv.linked
  · intro other
    by_cases same : other = item
    · simp [same, Pc.pushing]
    · simp [same, Pc.pushing, held other same]
  · intro other
    by_cases same : other = item
    · simp [same, Pc.popping]
    · simp [same, Pc.popping, empty other]
  · intro third different other
    by_cases same : other = item
    · simp [same, pushes, Ne.symm different]
    · simp [same]
  · intro other
    by_cases same : other = item
    · simp [same]
    · simp [same, inv.stored other]
  · intro other
    by_cases same : other = item
    · simpa [same, pushes, Owner.begun, Casqueue.finish] using inv.counted.begun item
    · simpa [same, Casqueue.finish] using inv.counted.begun other
  · intro other
    by_cases same : other = item
    · have before := inv.counted.pushed item
      simp [same, pushes, Owner.pushed, Casqueue.finish] at before ⊢
      exact before
    · simpa [same, Casqueue.finish] using inv.counted.pushed other

theorem pop_leaves (nspin : Nat) (item : Option Item) (here : world.own thread = .popclrptr nspin item) :
    Inv (world.put thread (popstep world.shared (.popclrptr nspin item))) none items owner := by
  have fits := inv.fits thread
  rw [here] at fits
  have mine := lock_mine world lock items owner inv thread (by rw [here]; rfl)
  exact inv_kept world lock items owner inv thread (world.shared.markptr false) (.poploop nspin item)
    (others_outside world lock items owner inv thread (Or.inl mine)) ⟨rfl, fun _ => rfl, rfl, rfl, rfl⟩ rfl (fun _ => fits) trivial
    (by rw [here]; rfl) (by rw [here]; rfl)

omit [DecidableEq Thread] thread in
theorem lock_free (free : world.shared.ptr.mark = false) : lock = none := by
  have mark := inv.mark
  rw [free] at mark
  exact Option.not_isSome_iff_eq_none.mp (by rw [← mark]; exact Bool.false_ne_true)

theorem inv_enters (next : Pc Item) (free : world.shared.ptr.mark = false) (inside : next.inside = true)
    (fits : Marked world.shared false none none → next.Fits (world.shared.markptr true)) (pushing : next.pushing = (world.own thread).pushing)
    (popping : next.popping = (world.own thread).popping) :
    Inv (world.put thread (world.shared.markptr true, next)) (some thread) items owner := by
  have unlocked := lock_free world lock items owner inv free
  have after := inv_kept world lock items owner inv thread (world.shared.markptr true) next
    (others_outside world lock items owner inv thread (Or.inr unlocked)) ⟨rfl, fun _ => rfl, rfl, rfl, rfl⟩ inside.symm
    (fun outside => by rw [inside] at outside; cases outside) (fits (inv.clear unlocked)) pushing popping
  rwa [inside, if_pos rfl] at after

-- A push may take the queue where its item points to the head.
theorem push_enters (item : Item) (here : world.own thread = .setptr item) (free : world.shared.ptr.mark = false)
    (link : (world.shared.next item).ptr = world.shared.ptr.ptr) :
    Inv (world.put thread (pushstep world.shared (.setptr item))) (some thread) items owner := by
  rw [pushstep, setbit_free _ _ _ _ _ free]
  exact inv_enters world lock items owner inv thread (.settail item) free rfl (fun clear => ⟨clear, link⟩) (by rw [here]; rfl) (by rw [here]; rfl)

theorem pop_enters (nspin : Nat) (here : world.own thread = .popptr nspin) (free : world.shared.ptr.mark = false) :
    Inv (world.put thread (popstep world.shared (.popptr nspin))) (some thread) items owner := by
  rw [popstep, setbit_free _ _ _ _ _ free]
  exact inv_enters world lock items owner inv thread (.poptail nspin) free rfl (fun clear => clear) (by rw [here]; rfl) (by rw [here]; rfl)

end Held

end OsZero.Queue.Markbit

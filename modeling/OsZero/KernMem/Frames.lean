import OsZero.KernMem.Page

set_option autoImplicit false

namespace OsZero.Page

open Links Deq Runs

structure LocksFree (vm : Vm) : Prop where
  phys : vm.physlk = false
  page : ∀ id, vm.pagelk id = false
  lru : ∀ q, vm.lrulk q = false

-- Once a frame is taken from a queue, the queue's lock is either asked for again or kept.
theorem requeue_locked (vm next : Vm) (q : Nat) (id : Pagenum) (held : vm.lrulk q = true) (queued : requeue vm q id = some next) : ¬LocksFree next := by
  intro free
  unfold requeue at queued
  dsimp only at queued
  split_ifs at queued with other
  · have stuck : ∀ change, locklru (vm.set id change) q = none := fun change => by
      unfold locklru Vm.set
      simp [held]
    rw [stuck] at queued
    cases queued
  · obtain ⟨queue, -, rfl⟩ := Option.map_eq_some_iff.mp queued
    exact Bool.false_ne_true ((free.lru q).symm.trans held)

theorem evictFrom_locks (left q : Nat) (vm : Vm) (got : Vm × Option Pagenum) (free : LocksFree vm) (taken : evictFrom left q vm = some got) :
    LocksFree got.1 ↔ got.2 = none := by
  induction left generalizing q vm with
  | zero =>
      obtain rfl := Option.some.inj taken
      exact iff_of_true free rfl
  | succ left ih =>
      unfold evictFrom at taken
      simp only [Option.bind_eq_bind, Option.bind_eq_some_iff] at taken
      obtain ⟨locked, first, last, second, taken⟩ := taken
      have held : locked = { vm with lrulk := Function.update vm.lrulk q true } := by
        unfold locklru at first
        split_ifs at first
        exact (Option.some.inj first).symm
      obtain ⟨queue, -, same⟩ := Option.map_eq_some_iff.mp second
      subst held same
      cases found : queue.2 with
      | none =>
          rw [found, Option.elim_none] at taken
          refine ih (q + 1) _ ?_ taken
          refine ⟨free.phys, free.page, fun r => ?_⟩
          simp only [unlocklru, Function.update_idem, Function.update_apply]
          split_ifs
          · rfl
          · exact free.lru r
      | some id =>
          rw [found, Option.elim_some] at taken
          obtain ⟨next, queued, rfl⟩ := Option.map_eq_some_iff.mp taken
          exact iff_of_false (requeue_locked _ next q id (Function.update_self ..) queued) (Option.some_ne_none id)

theorem evict_locked (rounds : Nat) (vm : Vm) (got : Vm × Pagenum) (free : LocksFree vm) (taken : evict rounds vm = some got) : ¬LocksFree got.1 := by
  induction rounds generalizing vm with
  | zero => cases taken
  | succ rounds ih =>
      unfold evict at taken
      obtain ⟨pass, walked, taken⟩ := Option.bind_eq_some_iff.mp taken
      have locks := evictFrom_locks ptrbits 0 vm pass free walked
      cases found : pass.2 with
      | none =>
          rw [found, Option.elim_none] at taken
          exact ih pass.1 (locks.mpr found) taken
      | some id =>
          rw [found, Option.elim_some] at taken
          obtain rfl := Option.some.inj taken
          exact fun free => Option.some_ne_none id (found.symm.trans (locks.mp free))

theorem pageallocphys_empty (rounds : Nat) (vm : Vm) (got : Vm × Pagenum) (free : LocksFree vm) (empty : vm.physqueue = none)
    (taken : pageallocphys rounds vm = some got) : ¬LocksFree got.1 := by
  unfold pageallocphys lockphys popphys deqpop at taken
  simp only [free.phys, Bool.false_eq_true, if_false, empty, Option.bind_eq_bind, Option.bind_some, Option.map_some, Option.elim_none] at taken
  refine evict_locked rounds _ got ?_ taken
  exact ⟨rfl, free.page, free.lru⟩

theorem pageallocphys_pop (rounds : Nat) (vm : Vm) (queue : SingleDeq Pagenum) (id : Pagenum) (free : vm.physlk = false)
    (popped : deqpop ⟨vm.links, vm.physqueue⟩ = some (queue, some id)) :
    pageallocphys rounds vm = some ({ vm with links := queue.links, physqueue := queue.deq }, id) := by
  unfold pageallocphys lockphys popphys unlockphys
  simp only [free, Bool.false_eq_true, if_false, popped, Option.bind_eq_bind, Option.bind_some, Option.map_some, Option.elim_some]

theorem pagecalcqid_eq (page : Physpage) : pagecalcqid page = if page.nflt = 0 then ptrbits else ptrbits - 1 := by
  unfold pagecalcqid lzerol ptrbits
  split_ifs <;> omega

-- The faults that put the frame on a queue of vmlrutab.
def Queued (adr flg : BitVec 32) : Prop := flg &&& pagewired = 0 ∧ adr &&& pagewired = 0

-- What fault leaves of the rest of the state.
structure Faulted (vm next : Vm) : Prop where
  pagetab : next.pagetab = vm.pagetab
  pagelk : next.pagelk = vm.pagelk
  physlk : next.physlk = vm.physlk
  physqueue : next.physqueue = vm.physqueue
  lrulk : next.lrulk = vm.lrulk
  nref : ∀ id, (next.page id).nref = (vm.page id).nref

theorem fault_unqueued (vm : Vm) (id : Pagenum) (adr flg : BitVec 32) (unqueued : ¬Queued adr flg) :
    ∃ next, fault vm id adr flg = some next ∧ Faulted vm next ∧ next.links = vm.links ∧ next.lrulist = vm.lrulist := by
  unfold fault
  by_cases wired : flg &&& pagewired ≠ 0
  · rw [if_pos wired]
    exact ⟨_, rfl, ⟨rfl, rfl, rfl, rfl, rfl, fun _ => rfl⟩, rfl, rfl⟩
  · have address : ¬adr &&& pagewired = 0 := fun unwired => unqueued ⟨not_not.mp wired, unwired⟩
    rw [if_neg wired]
    dsimp only
    rw [if_neg address]
    refine ⟨_, rfl, ⟨rfl, rfl, rfl, rfl, rfl, fun other => ?_⟩, rfl, rfl⟩
    simp only [Vm.set, Function.update_apply]
    split_ifs with same
    · rw [same]
    · rfl

theorem fault_queued (vm : Vm) (id : Pagenum) (adr flg : BitVec 32) (queued : Queued adr flg) (free : ∀ q, vm.lrulk q = false) :
    fault vm id adr flg = none ∧ ((vm.page id).nflt + 1 = 0 ∨ deqpush id ⟨vm.links, vm.lrulist (ptrbits - 1)⟩ = none) ∨
      (vm.page id).nflt + 1 ≠ 0 ∧ ∃ next queue, fault vm id adr flg = some next ∧ Faulted vm next ∧
        deqpush id ⟨vm.links, vm.lrulist (ptrbits - 1)⟩ = some queue ∧ next.links = queue.links ∧
        next.lrulist = Function.update vm.lrulist (ptrbits - 1) queue.deq := by
  unfold fault
  dsimp only
  rw [if_neg (not_not.mpr queued.1), if_pos queued.2, pagecalcqid_eq]
  simp only [Vm.set, Function.update_self]
  by_cases wrapped : (vm.page id).nflt + 1 = 0
  · rw [if_pos wrapped]
    exact Or.inl ⟨rfl, Or.inl wrapped⟩
  · rw [if_neg wrapped]
    have lock : ptrbits - 1 < ptrbits := by decide
    unfold locklru pushlru
    dsimp only
    rw [if_pos lock, free, if_neg Bool.false_ne_true, Option.bind_some]
    cases pushed : deqpush id ⟨vm.links, vm.lrulist (ptrbits - 1)⟩ with
    | none => exact Or.inl ⟨rfl, Or.inr rfl⟩
    | some queue =>
        refine Or.inr ⟨wrapped, _, queue, rfl, ⟨rfl, rfl, rfl, rfl, ?_, fun other => ?_⟩, rfl, rfl, rfl⟩
        · simp only [unlocklru, Function.update_idem]
          exact Function.update_eq_self_iff.mpr (free _).symm
        · simp only [unlocklru, Function.update_apply]
          split_ifs with same
          · rw [same]
          · rfl

def Taken (adr : BitVec 32) : Prop := adr &&& ~~~(pagefltadrmask ||| pagesysflags) = 0

instance (adr : BitVec 32) : Decidable (Taken adr) := inferInstanceAs (Decidable (_ = _))

def faultflg (vm : Vm) (adr : BitVec 32) : BitVec 32 := vm.pagetab (vmpagenum adr) &&& (pagefltflgmask ||| pagesysflags)

def entry (vm : Vm) (adr : BitVec 32) : BitVec 32 := adr ||| faultflg vm adr ||| pagepres

-- The entry takes its frame number from the address that faulted.
theorem entry_pagenum (vm : Vm) (adr : BitVec 32) : vmpagenum (entry vm adr) = vmpagenum adr := by
  have mask : (pagefltflgmask ||| pagesysflags).extractLsb' 12 20 = 0 := by decide
  have pres : pagepres.extractLsb' 12 20 = 0 := by decide
  unfold entry faultflg vmpagenum
  rw [BitVec.extractLsb'_or, BitVec.extractLsb'_or, BitVec.extractLsb'_and, mask, pres]
  simp

theorem vmpagemask_pagenum (pte : BitVec 32) : vmpagenum (pte &&& vmpagemask) = vmpagenum pte := by
  have mask : vmpagemask.extractLsb' 12 20 = BitVec.allOnes 20 := by decide
  unfold vmpagenum
  rw [BitVec.extractLsb'_and, mask, BitVec.and_allOnes]

-- The frame popped from vmphysqueue, with its lock and a reference.
def grabbed (vm : Vm) (queue : SingleDeq Pagenum) (id : Pagenum) : Vm :=
  { vm with links := queue.links, physqueue := queue.deq, pagelk := Function.update vm.pagelk id true }.set id
    fun page => { page with nref := page.nref + 1 }

theorem vmpagefault_pop (rounds : Nat) (vm : Vm) (adr : BitVec 32) (queue : SingleDeq Pagenum) (id : Pagenum) (free : LocksFree vm) (taken : Taken adr)
    (popped : deqpop ⟨vm.links, vm.physqueue⟩ = some (queue, some id)) :
    vmpagefault rounds vm adr = (fault (grabbed vm queue id) id adr (faultflg vm adr)).map fun next =>
      { unlockpage next id with pagetab := Function.update next.pagetab (vmpagenum adr) (entry vm adr) } := by
  have step := pageallocphys_pop rounds vm queue id free.phys popped
  have lock : lockpage { vm with links := queue.links, physqueue := queue.deq } id =
      some { vm with links := queue.links, physqueue := queue.deq, pagelk := Function.update vm.pagelk id true } := by
    unfold lockpage
    simp [free.page id]
  unfold vmpagefault
  dsimp only
  rw [if_pos (show adr &&& ~~~(pagefltadrmask ||| pagesysflags) = 0 from taken), step]
  simp only [Option.bind_eq_bind, Option.bind_some, lock]
  exact Option.map_eq_bind.symm

theorem pagefreephys_one (vm : Vm) (adr : BitVec 32) (free : LocksFree vm) (one : (vm.page (vmpagenum adr)).nref = 1) :
    pagefreephys vm adr = (deqpush (vmpagenum adr) ⟨vm.links, vm.physqueue⟩).map fun queue =>
      { vm.set (vmpagenum adr) fun page => { page with nref := 0 } with links := queue.links, physqueue := queue.deq } := by
  have gone : (vm.page (vmpagenum adr)).nref - 1 = 0 := by
    rw [one]
    rfl
  have unlocked : Function.update (Function.update vm.pagelk (vmpagenum adr) true) (vmpagenum adr) false = vm.pagelk := by
    rw [Function.update_idem]
    exact Function.update_eq_self_iff.mpr (free.page _).symm
  unfold pagefreephys lockphys lockpage
  simp only [free.phys, free.page, Bool.false_eq_true, if_false, Option.bind_eq_bind, Option.bind_some, Vm.set, Function.update_self, gone, if_true,
    pushphys]
  cases deqpush (vmpagenum adr) ⟨vm.links, vm.physqueue⟩ with
  | none => rfl
  | some queue => simp only [Option.map_some, Option.bind_some, unlockphys, unlockpage, unlocked]

theorem vmfreephys_one (vm : Vm) (pte : Pagenum) (free : LocksFree vm) (some_frame : vmpagenum (vm.pagetab pte) ≠ 0)
    (one : (vm.page (vmpagenum (vm.pagetab pte))).nref = 1) : ∃ nmap nwire,
    vmfreephys vm pte = (deqpush (vmpagenum (vm.pagetab pte)) ⟨vm.links, vm.physqueue⟩).map fun queue =>
      { vm.set (vmpagenum (vm.pagetab pte)) fun page => { page with nref := 0 } with
        links := queue.links, physqueue := queue.deq, nmap := nmap, nwire := nwire, pagetab := Function.update vm.pagetab pte 0 } := by
  have present : ¬vm.pagetab pte &&& vmpagemask = 0 := fun zero => some_frame (by
    rw [← vmpagemask_pagenum, zero]
    rfl)
  have given : ∀ nmap nwire, (pagefreephys { vm with nmap := nmap, nwire := nwire } (vm.pagetab pte &&& vmpagemask)).map
      (fun vm => { vm with pagetab := Function.update vm.pagetab pte 0 }) =
        (deqpush (vmpagenum (vm.pagetab pte)) ⟨vm.links, vm.physqueue⟩).map fun queue =>
          { vm.set (vmpagenum (vm.pagetab pte)) fun page => { page with nref := 0 } with
            links := queue.links, physqueue := queue.deq, nmap := nmap, nwire := nwire, pagetab := Function.update vm.pagetab pte 0 } := fun nmap nwire => by
    rw [pagefreephys_one { vm with nmap := nmap, nwire := nwire } _ ⟨free.phys, free.page, free.lru⟩ (by rw [vmpagemask_pagenum]; exact one),
      vmpagemask_pagenum, Option.map_map]
    rfl
  unfold vmfreephys
  dsimp only
  rw [if_neg present]
  split_ifs
  · exact ⟨vm.nmap, vm.nwire, given _ _⟩
  · exact ⟨vm.nmap - 1, vm.nwire, given _ _⟩
  · exact ⟨vm.nmap, vm.nwire - 1, given _ _⟩

def Names (vm : Vm) (pte id : Pagenum) : Prop := vmpagenum (vm.pagetab pte) = id

-- Each queue is one, and no frame is on two of them.
structure Queues (vm : Vm) (free : List Pagenum) (lru : Nat → List Pagenum) : Prop where
  phys : Represents ⟨vm.links, vm.physqueue⟩ free
  lists : ∀ q < ptrbits, Represents ⟨vm.links, vm.lrulist q⟩ (lru q)
  apart : ∀ q < ptrbits, ∀ id ∈ lru q, id ∉ free
  others : ∀ q < ptrbits, ∀ r < ptrbits, q ≠ r → ∀ id ∈ lru q, id ∉ lru r

-- The frames are those that pageinitphys has put on vmphysqueue.
structure Owned (frames : Pagenum → Prop) (vm : Vm) : Prop where
  queues : ∃ free lru, Queues vm free lru ∧ ∀ id, frames id → (id ∈ free ↔ (vm.page id).nref = 0)
  once : ∀ pte other id, frames id → Names vm pte id → Names vm other id → pte = other
  unlocked : LocksFree vm

structure Counted (frames : Pagenum → Prop) (vm : Vm) (free : List Pagenum) (lru : Nat → List Pagenum) : Prop where
  queues : Queues vm free lru
  free_frames : ∀ id ∈ free, frames id
  free_iff : ∀ id, frames id → (id ∈ free ↔ (vm.page id).nref = 0)
  held : ∀ pte id, frames id → Names vm pte id → (vm.page id).nref = 1
  unheld : ∀ id, frames id → (∀ pte, ¬Names vm pte id) → (vm.page id).nref = 0
  once : ∀ pte other id, frames id → Names vm pte id → Names vm other id → pte = other
  unlocked : LocksFree vm

theorem owned_counted (frames : Pagenum → Prop) (vm : Vm) (free : List Pagenum) (lru : Nat → List Pagenum) (counted : Counted frames vm free lru) :
    Owned frames vm :=
  ⟨⟨free, lru, counted.queues, counted.free_iff⟩, counted.once, counted.unlocked⟩

-- The page has no frame yet; the frame that is given back is held by an entry.
def Legal (frames : Pagenum → Prop) (vm : Vm) : Op → Prop
  | .vmpagefault adr _ => Names vm (vmpagenum adr) 0
  | .vmfreephys pte => frames (vmpagenum (vm.pagetab pte))

-- An allocation returns with the locks free, and its frame is the one the entry names.
def Installs (vm : Vm) : Op → Prop
  | .vmpagefault adr rounds => ∃ got, pageallocphys rounds vm = some got ∧ LocksFree got.1 ∧
      (vm.physqueue ≠ none → ∀ next, vmpagefault rounds vm adr = some next → Names next (vmpagenum adr) got.2)
  | .vmfreephys _ => True

-- The fault is served, one frame is free or more than two are, the first of them has
-- the number of the virtual page, and its count of faults does not wrap; what is given
-- back is on no queue.
def Fits (vm : Vm) : Op → Prop
  | .vmpagefault adr _ => Taken adr ∧
      (∃ free, Represents ⟨vm.links, vm.physqueue⟩ free ∧ free.length ≠ 2 ∧ free.head? = some (vmpagenum adr)) ∧
        (Queued adr (faultflg vm adr) → (vm.page (vmpagenum adr)).nflt + 1 ≠ 0)
  | .vmfreephys pte => ∀ q < ptrbits, ∀ items, Represents ⟨vm.links, vm.lrulist q⟩ items → vmpagenum (vm.pagetab pte) ∉ items

-- Linking a frame on a queue leaves the other queues as they are.
theorem push_others (links : Heap Pagenum) (deq other : Option Pagenum) (items others : List Pagenum) (id : Pagenum) (queue : SingleDeq Pagenum)
    (rep : Represents ⟨links, deq⟩ items) (pushed : deqpush id ⟨links, deq⟩ = some queue) (apart : ∀ item ∈ others, item ∉ items)
    (absent : id ∉ others) (kept : Represents ⟨links, other⟩ others) : Represents ⟨queue.links, other⟩ others :=
  represents_frame links queue.links other others kept fun item inside =>
    linkbefore_frame ⟨links, deq⟩ queue items id item rep pushed (apart item inside) fun same => absent (same ▸ inside)

theorem pop_others (links : Heap Pagenum) (deq other : Option Pagenum) (items others : List Pagenum) (out : Option Pagenum) (queue : SingleDeq Pagenum)
    (rep : Represents ⟨links, deq⟩ items) (popped : deqpop ⟨links, deq⟩ = some (queue, out)) (apart : ∀ item ∈ others, item ∉ items)
    (kept : Represents ⟨links, other⟩ others) : Represents ⟨queue.links, other⟩ others :=
  represents_frame links queue.links other others kept fun item inside =>
    deqpop_frame ⟨links, deq⟩ queue items item out rep popped (apart item inside)

theorem free_kept (frames : Pagenum → Prop) (vm : Vm) (pte : Pagenum) (free : List Pagenum) (lru : Nat → List Pagenum)
    (reserved : ¬frames 0) (counted : Counted frames vm free lru) (legal : frames (vmpagenum (vm.pagetab pte)))
    (fits : ∀ q < ptrbits, vmpagenum (vm.pagetab pte) ∉ lru q) :
    ∃ next, vmfreephys vm pte = some next ∧ Counted frames next (free ++ [vmpagenum (vm.pagetab pte)]) lru := by
  have one := counted.held pte _ legal rfl
  have absent : vmpagenum (vm.pagetab pte) ∉ free := fun inside => by
    have zero := (counted.free_iff _ legal).mp inside
    rw [one] at zero
    exact absurd zero (by decide)
  have some_frame : vmpagenum (vm.pagetab pte) ≠ 0 := fun zero => reserved (zero ▸ legal)
  obtain ⟨nmap, nwire, given⟩ := vmfreephys_one vm pte counted.unlocked some_frame one
  obtain ⟨queue, pushed, rep⟩ := linkbefore_represents ⟨vm.links, vm.physqueue⟩ free (vmpagenum (vm.pagetab pte)) counted.queues.phys absent
  have push : deqpush (vmpagenum (vm.pagetab pte)) ⟨vm.links, vm.physqueue⟩ = some queue := pushed
  rw [push, Option.map_some] at given
  have cleared : ∀ other id, frames id → vmpagenum (Function.update vm.pagetab pte 0 other) = id → other ≠ pte ∧ Names vm other id :=
    fun other id managed names => by
      have elsewhere : other ≠ pte := fun same => reserved (by
        rw [same, Function.update_self] at names
        exact (show (0 : Pagenum) = id from names) ▸ managed)
      rw [Function.update_of_ne elsewhere] at names
      exact ⟨elsewhere, names⟩
  refine ⟨_, given, ⟨rep, fun q low => ?_, fun q low id inside => ?_, counted.queues.others⟩, fun id inside => ?_, fun id managed => ?_,
    fun other id managed names => ?_, fun id managed none => ?_, fun first second id managed left right => ?_,
    counted.unlocked.phys, counted.unlocked.page, counted.unlocked.lru⟩
  · exact push_others vm.links vm.physqueue _ free (lru q) _ queue counted.queues.phys push (counted.queues.apart q low) (fits q low) (counted.queues.lists q low)
  · rw [List.mem_append, List.mem_singleton]
    exact not_or.mpr ⟨counted.queues.apart q low id inside, fun same => fits q low (same ▸ inside)⟩
  · rcases List.mem_append.mp inside with old | new
    · exact counted.free_frames id old
    · exact List.mem_singleton.mp new ▸ legal
  · rw [List.mem_append, List.mem_singleton, counted.free_iff id managed]
    by_cases same : id = vmpagenum (vm.pagetab pte)
    · simp [Vm.set, same]
    · simp [Vm.set, same]
  · obtain ⟨elsewhere, before⟩ := cleared other id managed names
    have different : id ≠ vmpagenum (vm.pagetab pte) := fun same => elsewhere (counted.once other pte id managed before same.symm)
    simpa [Vm.set, Function.update_of_ne different] using counted.held other id managed before
  · by_cases same : id = vmpagenum (vm.pagetab pte)
    · simp [Vm.set, same]
    · simp only [Vm.set, Function.update_of_ne same]
      refine counted.unheld id managed fun other names => ?_
      have elsewhere : other ≠ pte := fun here => same (by rw [← names, here])
      exact none other (by simpa [Names, Function.update_of_ne elsewhere] using names)
  · exact counted.once first second id managed (cleared first id managed left).2 (cleared second id managed right).2

-- What a fault that takes a frame from vmphysqueue leaves, apart from the queues.
structure Installed (vm next : Vm) (adr : BitVec 32) (id : Pagenum) : Prop where
  pagetab : next.pagetab = Function.update vm.pagetab (vmpagenum adr) (entry vm adr)
  nref : ∀ other, (next.page other).nref = if other = id then (vm.page id).nref + 1 else (vm.page other).nref
  unlocked : LocksFree next

theorem installed_of_faulted (vm next : Vm) (adr : BitVec 32) (queue : SingleDeq Pagenum) (id : Pagenum) (free : LocksFree vm)
    (faulted : Faulted (grabbed vm queue id) next) :
    Installed vm { unlockpage next id with pagetab := Function.update next.pagetab (vmpagenum adr) (entry vm adr) } adr id := by
  refine ⟨by rw [faulted.pagetab]; rfl, fun other => ?_, faulted.physlk.trans free.phys, fun other => ?_, fun q => ?_⟩
  · simp only [unlockpage, faulted.nref, grabbed, Vm.set, Function.update_apply]
    split_ifs <;> rfl
  · simp only [unlockpage, faulted.pagelk, grabbed, Vm.set, Function.update_idem, Function.update_apply]
    split_ifs
    · rfl
    · exact free.page other
  · exact (congrFun faulted.lrulk q).trans (free.lru q)

theorem counted_installed (frames : Pagenum → Prop) (vm next : Vm) (adr : BitVec 32) (rest : List Pagenum) (lru lists : Nat → List Pagenum)
    (reserved : ¬frames 0) (counted : Counted frames vm (vmpagenum adr :: rest) lru) (legal : Names vm (vmpagenum adr) 0)
    (installed : Installed vm next adr (vmpagenum adr)) (queues : Queues next rest lists) : Counted frames next rest lists := by
  have managed_here : frames (vmpagenum adr) := counted.free_frames _ List.mem_cons_self
  have unused : (vm.page (vmpagenum adr)).nref = 0 := (counted.free_iff _ managed_here).mp List.mem_cons_self
  have outside : vmpagenum adr ∉ rest := (List.nodup_cons.mp counted.queues.phys.nodup).1
  have here : ∀ id, Names next (vmpagenum adr) id ↔ id = vmpagenum adr := fun id => by
    unfold Names
    rw [installed.pagetab, Function.update_self, entry_pagenum]
    exact eq_comm
  have there : ∀ pte id, pte ≠ vmpagenum adr → (Names next pte id ↔ Names vm pte id) := fun pte id other => by
    unfold Names
    rw [installed.pagetab, Function.update_of_ne other]
  have apart : ∀ pte id, frames id → Names vm pte id → id ≠ vmpagenum adr := fun pte id managed names same => by
    have one := counted.held pte id managed names
    rw [same, unused] at one
    exact absurd one (by decide)
  refine ⟨queues, fun id inside => counted.free_frames id (List.mem_cons_of_mem _ inside), fun id managed => ?_, fun pte id managed names => ?_,
    fun id managed none => ?_, fun pte other id managed left right => ?_, installed.unlocked⟩
  · rw [installed.nref]
    split_ifs with same
    · rw [unused]
      exact iff_of_false (same ▸ outside) (by decide)
    · rw [← counted.free_iff id managed, List.mem_cons]
      simp [same]
  · rw [installed.nref]
    by_cases same : pte = vmpagenum adr
    · rw [if_pos ((here id).mp (same ▸ names)), unused]
      rfl
    · have before := (there pte id same).mp names
      rw [if_neg (apart pte id managed before)]
      exact counted.held pte id managed before
  · have other : id ≠ vmpagenum adr := fun same => none (vmpagenum adr) ((here id).mpr same)
    rw [installed.nref, if_neg other]
    refine counted.unheld id managed fun pte names => ?_
    by_cases same : pte = vmpagenum adr
    · exact reserved ((show (0 : Pagenum) = id from legal.symm.trans (same ▸ names)) ▸ managed)
    · exact none pte ((there pte id same).mpr names)
  · by_cases first : pte = vmpagenum adr
    · by_cases second : other = vmpagenum adr
      · exact first.trans second.symm
      · have named := (there other id second).mp right
        exact absurd ((here id).mp (first ▸ left)) (apart other id managed named)
    · have named := (there pte id first).mp left
      by_cases second : other = vmpagenum adr
      · exact absurd ((here id).mp (second ▸ right)) (apart pte id managed named)
      · exact counted.once pte other id managed named ((there other id second).mp right)

theorem queues_popped (vm next : Vm) (id : Pagenum) (rest : List Pagenum) (lru : Nat → List Pagenum) (queue : SingleDeq Pagenum)
    (queues : Queues vm (id :: rest) lru) (popped : deqpop ⟨vm.links, vm.physqueue⟩ = some (queue, some id)) (rep : Represents queue rest)
    (links : next.links = queue.links) (physqueue : next.physqueue = queue.deq) (lrulist : next.lrulist = vm.lrulist) : Queues next rest lru := by
  refine ⟨?_, fun q low => ?_, fun q low other inside => ?_, queues.others⟩
  · rw [links, physqueue]
    exact rep
  · rw [links, lrulist]
    exact pop_others vm.links vm.physqueue _ _ (lru q) _ queue queues.phys popped (queues.apart q low) (queues.lists q low)
  · exact fun found => queues.apart q low other inside (List.mem_cons_of_mem id found)

theorem queues_filed (vm next : Vm) (q : Nat) (id : Pagenum) (free : List Pagenum) (lru : Nat → List Pagenum) (low : q < ptrbits)
    (queues : Queues vm free lru) (unfree : id ∉ free) (unlisted : ∀ r < ptrbits, id ∉ lru r) :
    ∃ queue, deqpush id ⟨vm.links, vm.lrulist q⟩ = some queue ∧
      (next.links = queue.links → next.physqueue = vm.physqueue → next.lrulist = Function.update vm.lrulist q queue.deq →
        Queues next free (Function.update lru q (lru q ++ [id]))) := by
  obtain ⟨queue, pushed, rep⟩ := linkbefore_represents ⟨vm.links, vm.lrulist q⟩ _ _ (queues.lists q low) (unlisted q low)
  have push : deqpush id ⟨vm.links, vm.lrulist q⟩ = some queue := pushed
  have members : ∀ r other, other ∈ Function.update lru q (lru q ++ [id]) r ↔ other ∈ lru r ∨ r = q ∧ other = id := fun r other => by
    by_cases same : r = q
    · subst same
      simp
    · simp [same]
  refine ⟨queue, push, fun links physqueue lrulist => ⟨?_, fun r bound => ?_, fun r bound other inside => ?_, fun r bound s limit different other inside => ?_⟩⟩
  · rw [links, physqueue]
    exact push_others vm.links _ vm.physqueue _ free id queue (queues.lists q low) push
      (fun item inside listed => queues.apart q low item listed inside) unfree queues.phys
  · rw [links, lrulist]
    by_cases same : r = q
    · subst same
      rw [Function.update_self, Function.update_self]
      exact rep
    · rw [Function.update_of_ne same, Function.update_of_ne same]
      exact push_others vm.links _ _ _ (lru r) id queue (queues.lists q low) push (queues.others r bound q low same) (unlisted r bound) (queues.lists r bound)
  · rcases (members r other).mp inside with old | ⟨-, rfl⟩
    · exact queues.apart r bound other old
    · exact unfree
  · rw [members, not_or]
    rcases (members r other).mp inside with old | ⟨rfl, rfl⟩
    · exact ⟨queues.others r bound s limit different other old, fun new => unlisted r bound (new.2 ▸ old)⟩
    · exact ⟨unlisted s limit, fun new => different new.1.symm⟩

theorem fault_kept (frames : Pagenum → Prop) (rounds : Nat) (vm : Vm) (adr : BitVec 32) (rest : List Pagenum) (lru : Nat → List Pagenum)
    (reserved : ¬frames 0) (counted : Counted frames vm (vmpagenum adr :: rest) lru) (legal : Names vm (vmpagenum adr) 0) (taken : Taken adr)
    (count : rest.length ≠ 1) (unwrapped : Queued adr (faultflg vm adr) → (vm.page (vmpagenum adr)).nflt + 1 ≠ 0) :
    ∃ next lists, vmpagefault rounds vm adr = some next ∧ Counted frames next rest lists := by
  have free := counted.unlocked
  have queues := counted.queues
  obtain ⟨queue, popped, rep⟩ := deqpop_represents ⟨vm.links, vm.physqueue⟩ _ queues.phys (by simpa using count)
  have step := vmpagefault_pop rounds vm adr queue (vmpagenum adr) free taken popped
  have middle : Queues (grabbed vm queue (vmpagenum adr)) rest lru := queues_popped vm _ _ rest lru queue queues popped rep rfl rfl rfl
  by_cases queued : Queued adr (faultflg vm adr)
  · have last : ptrbits - 1 < ptrbits := by decide
    have unfree : vmpagenum adr ∉ rest := (List.nodup_cons.mp queues.phys.nodup).1
    have unlisted : ∀ q < ptrbits, vmpagenum adr ∉ lru q := fun q low inside => queues.apart q low _ inside List.mem_cons_self
    obtain ⟨-, wrapped | stuck⟩ | ⟨-, next, filed, done, faulted, pushed, links, lrulist⟩ :=
      fault_queued (grabbed vm queue (vmpagenum adr)) (vmpagenum adr) adr (faultflg vm adr) queued free.lru
    · exact absurd (by simpa [grabbed, Vm.set] using wrapped) (unwrapped queued)
    · obtain ⟨filed, push, -⟩ := queues_filed _ vm (ptrbits - 1) _ rest lru last middle unfree unlisted
      exact absurd (stuck.symm.trans push) (Option.some_ne_none _).symm
    · rw [done, Option.map_some] at step
      obtain ⟨other, push, refiled⟩ := queues_filed _ { unlockpage next (vmpagenum adr) with
        pagetab := Function.update next.pagetab (vmpagenum adr) (entry vm adr) } (ptrbits - 1) _ rest lru last middle unfree unlisted
      obtain rfl := Option.some.inj (pushed.symm.trans push)
      exact ⟨_, _, step, counted_installed frames vm _ adr rest lru _ reserved counted legal
        (installed_of_faulted vm next adr queue _ free faulted) (refiled links faulted.physqueue lrulist)⟩
  · obtain ⟨next, done, faulted, links, lrulist⟩ := fault_unqueued (grabbed vm queue (vmpagenum adr)) (vmpagenum adr) adr (faultflg vm adr) queued
    rw [done, Option.map_some] at step
    exact ⟨_, lru, step, counted_installed frames vm _ adr rest lru _ reserved counted legal (installed_of_faulted vm next adr queue _ free faulted)
      (queues_popped vm _ _ rest lru queue queues popped rep links faulted.physqueue lrulist)⟩

theorem fault_installed (rounds : Nat) (vm next : Vm) (adr : BitVec 32) (queue : SingleDeq Pagenum) (id : Pagenum) (free : LocksFree vm) (taken : Taken adr)
    (popped : deqpop ⟨vm.links, vm.physqueue⟩ = some (queue, some id)) (done : vmpagefault rounds vm adr = some next) :
    Installed vm next adr id ∧ next.physqueue = queue.deq ∧ (Queued adr (faultflg vm adr) → (vm.page id).nflt + 1 ≠ 0) := by
  rw [vmpagefault_pop rounds vm adr queue id free taken popped] at done
  obtain ⟨middle, faulted, rfl⟩ := Option.map_eq_some_iff.mp done
  by_cases queued : Queued adr (faultflg vm adr)
  · obtain ⟨none, -⟩ | ⟨unwrapped, other, filed, same, left, -⟩ := fault_queued (grabbed vm queue id) id adr (faultflg vm adr) queued free.lru
    · exact absurd (faulted.symm.trans none) (Option.some_ne_none _)
    · obtain rfl := Option.some.inj (faulted.symm.trans same)
      refine ⟨installed_of_faulted vm middle adr queue id free left, left.physqueue, fun _ wrapped => unwrapped ?_⟩
      simpa [grabbed, Vm.set] using wrapped
  · obtain ⟨other, same, left, -⟩ := fault_unqueued (grabbed vm queue id) id adr (faultflg vm adr) queued
    obtain rfl := Option.some.inj (faulted.symm.trans same)
    exact ⟨installed_of_faulted vm middle adr queue id free left, left.physqueue, fun yes => absurd yes queued⟩

-- A fault that is not served leaves the entry 0, which is no frame's number.
theorem installs_taken (rounds : Nat) (vm : Vm) (adr : BitVec 32) (id : Pagenum) (other : id ≠ 0) (unmapped : Names vm (vmpagenum adr) 0)
    (names : ∀ next, vmpagefault rounds vm adr = some next → Names next (vmpagenum adr) id) : Taken adr := by
  by_contra untaken
  exact other ((names vm (if_neg untaken)).symm.trans unmapped)

theorem fault_only (frames : Pagenum → Prop) (rounds : Nat) (vm next : Vm) (adr : BitVec 32) (free : List Pagenum) (lru : Nat → List Pagenum)
    (reserved : ¬frames 0) (counted : Counted frames vm free lru) (legal : Names vm (vmpagenum adr) 0)
    (installs : Installs vm (.vmpagefault adr rounds)) (done : vmpagefault rounds vm adr = some next)
    (owned : Owned frames next) : Fits vm (.vmpagefault adr rounds) := by
  obtain ⟨got, allocated, unlocked, names⟩ := installs
  have first := counted.queues.phys.first
  cases free with
  | nil => exact absurd unlocked (pageallocphys_empty rounds vm got counted.unlocked first allocated)
  | cons id rest =>
      have present : vm.physqueue ≠ none := fun none => Option.some_ne_none id (first.symm.trans none)
      have two : rest.length = 1 → ∃ other, rest = [other] := List.length_eq_one_iff.mp
      have pop : ∃ queue, deqpop ⟨vm.links, vm.physqueue⟩ = some (queue, some id) ∧ (rest.length = 1 → queue.deq = none) := by
        by_cases pair : rest.length = 1
        · obtain ⟨other, rfl⟩ := two pair
          have singular := (two_items_singular _ id other counted.queues.phys).1
          refine ⟨⟨vm.links, none⟩, ?_, fun _ => rfl⟩
          unfold deqpop
          dsimp only at first singular ⊢
          rw [first]
          simp [singular]
        · obtain ⟨queue, popped, -⟩ := deqpop_represents _ _ counted.queues.phys (by simpa using pair)
          exact ⟨queue, popped, fun one => absurd one pair⟩
      obtain ⟨queue, popped, emptied⟩ := pop
      have frame : got.2 = id := by
        have same := allocated.symm.trans (pageallocphys_pop rounds vm queue id counted.unlocked.phys popped)
        exact congrArg Prod.snd (Option.some.inj same)
      have numbered : id ≠ 0 := fun zero => reserved (zero ▸ counted.free_frames id List.mem_cons_self)
      have taken := installs_taken rounds vm adr id numbered legal (frame ▸ names present)
      obtain ⟨installed, physqueue, unwrapped⟩ := fault_installed rounds vm next adr queue id counted.unlocked taken popped done
      have named : vmpagenum adr = id := by
        have entered := names present next done
        unfold Names at entered
        rw [installed.pagetab, Function.update_self, entry_pagenum] at entered
        exact entered.trans frame
      refine ⟨taken, ⟨id :: rest, counted.queues.phys, fun pair => ?_, named ▸ rfl⟩, named ▸ unwrapped⟩
      have one : rest.length = 1 := by simpa using pair
      obtain ⟨other, rfl⟩ := two one
      obtain ⟨free, lists, queues, free_iff⟩ := owned.queues
      have empty : free = [] := by
        have at_deq := queues.phys.first
        rw [physqueue, emptied one] at at_deq
        exact List.head?_eq_none_iff.mp at_deq.symm
      have inside : other ∈ [id, other] := by simp
      have managed := counted.free_frames other inside
      have different : other ≠ id := fun same => by simpa [same] using counted.queues.phys.nodup
      have zero : (next.page other).nref = 0 := by
        rw [installed.nref, if_neg different]
        exact (counted.free_iff other managed).mp inside
      exact List.not_mem_nil (empty ▸ (free_iff other managed).mpr zero)

theorem free_only (frames : Pagenum → Prop) (vm next : Vm) (pte : Pagenum) (free : List Pagenum) (lru : Nat → List Pagenum) (reserved : ¬frames 0)
    (counted : Counted frames vm free lru) (legal : frames (vmpagenum (vm.pagetab pte))) (done : vmfreephys vm pte = some next)
    (owned : Owned frames next) : Fits vm (.vmfreephys pte) := by
  intro q low items rep inside
  have one := counted.held pte _ legal rfl
  have some_frame : vmpagenum (vm.pagetab pte) ≠ 0 := fun zero => reserved (zero ▸ legal)
  obtain ⟨nmap, nwire, given⟩ := vmfreephys_one vm pte counted.unlocked some_frame one
  obtain ⟨queue, pushed, rfl⟩ := Option.map_eq_some_iff.mp (given.symm.trans done)
  obtain ⟨front, back, split⟩ := List.append_of_mem inside
  subst split
  obtain ⟨nowfree, lists, queues, free_iff⟩ := owned.queues
  have freed : vmpagenum (vm.pagetab pte) ∈ nowfree := (free_iff _ legal).mpr (by simp [Vm.set])
  refine queues.apart q low _ ?_ freed
  refine represents_reaches vm.links _ (vm.lrulist q) front back (lists q) _ rep (queues.lists q low) fun other early => ?_
  have listed := represents_unique _ _ _ rep (counted.queues.lists q low)
  have outside : other ∉ free := counted.queues.apart q low other (listed ▸ List.mem_append_left _ early)
  have different : other ≠ vmpagenum (vm.pagetab pte) := fun same =>
    (List.nodup_append.mp rep.nodup).2.2 other early other (same ▸ List.mem_cons_self) rfl
  exact (linkbefore_frame _ queue free _ other counted.queues.phys pushed outside different).1

def Tracked (frames : Pagenum → Prop) (vm : Vm) : Prop := ∃ free lru, Counted frames vm free lru

theorem step_kept (frames : Pagenum → Prop) (vm : Vm) (op : Op) (reserved : ¬frames 0) (tracked : Tracked frames vm) (legal : Legal frames vm op)
    (fits : Fits vm op) : Installs vm op ∧ ∃ next, vmStep vm op = some next ∧ Tracked frames next := by
  obtain ⟨free, lru, counted⟩ := tracked
  cases op with
  | vmpagefault adr rounds =>
      obtain ⟨taken, ⟨list, rep, count, first⟩, unwrapped⟩ := fits
      obtain rfl := represents_unique _ _ _ rep counted.queues.phys
      obtain ⟨rest, rfl⟩ := List.head?_eq_some_iff.mp first
      have several : rest.length ≠ 1 := by simpa using count
      obtain ⟨next, lists, done, after⟩ := fault_kept frames rounds vm adr rest lru reserved counted legal taken several unwrapped
      obtain ⟨queue, popped, -⟩ := deqpop_represents _ _ counted.queues.phys count
      have allocated := pageallocphys_pop rounds vm queue _ counted.unlocked.phys popped
      have unlocked := counted.unlocked
      refine ⟨⟨_, allocated, ⟨unlocked.phys, unlocked.page, unlocked.lru⟩, fun _ other same => ?_⟩, next, done, rest, lists, after⟩
      have installed := (fault_installed rounds vm other adr queue _ unlocked taken popped same).1
      unfold Names
      rw [installed.pagetab, Function.update_self, entry_pagenum]
  | vmfreephys pte =>
      obtain ⟨next, done, after⟩ := free_kept frames vm pte free lru reserved counted legal fun q low => fits q low (lru q) (counted.queues.lists q low)
      exact ⟨trivial, next, done, _, lru, after⟩

theorem step_only (frames : Pagenum → Prop) (vm next : Vm) (op : Op) (reserved : ¬frames 0) (tracked : Tracked frames vm) (legal : Legal frames vm op)
    (installs : Installs vm op) (done : vmStep vm op = some next) (owned : Owned frames next) : Fits vm op := by
  obtain ⟨free, lru, counted⟩ := tracked
  cases op with
  | vmpagefault adr rounds => exact fault_only frames rounds vm next adr free lru reserved counted legal installs done owned
  | vmfreephys pte => exact free_only frames vm next pte free lru reserved counted legal done owned

-- PAGEDEV is 0: a frame that is not in memory is not looked for.
theorem frames_owned_iff (frames : Pagenum → Prop) (reserved : ¬frames 0) (vm : Vm) (start : Tracked frames vm) (ops : List Op)
    (legal : Meets vmStep (Legal frames) vm ops) : Holds vmStep (Owned frames) Installs vm ops ↔ Meets vmStep Fits vm ops := by
  refine holds_iff_invariant vmStep (Tracked frames) (Owned frames) Installs Fits (Legal frames) ?_ ?_ ?_ vm ops start legal
  · rintro state ⟨free, lru, counted⟩
    exact owned_counted frames state free lru counted
  · exact fun state op tracked allowed fits => step_kept frames state op reserved tracked allowed fits
  · exact fun state op next tracked allowed installs done owned => step_only frames state next op reserved tracked allowed installs done owned

-- One frame, number five, and no entries.
def oneFrame : Vm :=
  ⟨fun _ => 0, fun _ => ⟨0, 0⟩, fun _ => false, ⟨fun _ => some 5, fun _ => some 5⟩, false, some 5, fun _ => false, fun _ => none, 0, 0⟩

theorem one_frame_tracked : Tracked (· = 5) oneFrame := by
  have unnamed : ∀ pte, ¬Names oneFrame pte 5 := fun pte names => by
    have zero : vmpagenum 0 = 5 := names
    exact absurd zero (by decide)
  refine ⟨[5], fun _ => [], ⟨⟨rfl, ?_, by simp⟩, fun q _ => ⟨rfl, .nil, .nil⟩, by simp, by simp⟩, by simp, ?_, ?_, fun id _ _ => rfl, ?_,
    rfl, fun _ => rfl, fun _ => rfl⟩
  · exact List.isChain_cons_cons.mpr ⟨⟨rfl, rfl⟩, .singleton _⟩
  · rintro id rfl
    simp [oneFrame]
  · rintro pte id rfl names
    exact absurd names (unnamed pte)
  · rintro pte other id rfl names
    exact absurd names (unnamed pte)

-- The same after a fault in the upper half of a page.
def faulted (adr entry : BitVec 32) : Vm :=
  { oneFrame with
    pagetab := Function.update oneFrame.pagetab (vmpagenum adr) entry
    page := Function.update (Function.update oneFrame.page 5 ⟨1, 0⟩) 5 ⟨1, 1⟩
    pagelk := Function.update (Function.update oneFrame.pagelk 5 true) 5 false
    physqueue := none
    nmap := 1 }

theorem fault_names_itself : Tracked (· = 5) oneFrame ∧ Meets vmStep (Legal (· = 5)) oneFrame [.vmpagefault 0x7800 1] ∧
    ¬Holds vmStep (Owned (· = 5)) Installs oneFrame [.vmpagefault 0x7800 1] := by
  refine ⟨one_frame_tracked, ⟨rfl, fun next taken => trivial⟩, ?_⟩
  rintro ⟨-, installs, -⟩
  obtain ⟨got, allocated, -, names⟩ := installs
  obtain rfl := Option.some.inj allocated
  have step : vmpagefault 1 oneFrame 0x7800 = some (faulted 0x7800 0x7801) := rfl
  have named : vmpagenum ((faulted 0x7800 0x7801).pagetab 7) = 5 := names (Option.some_ne_none 5) _ step
  exact absurd named (by decide)

theorem wired_frame_owned : Holds vmStep (Owned (· = 5)) Installs oneFrame [.vmpagefault 0x5800 1, .vmfreephys 5] := by
  have step : vmStep oneFrame (.vmpagefault 0x5800 1) = some (faulted 0x5800 0x5801) := rfl
  have legal : Meets vmStep (Legal (· = 5)) oneFrame [.vmpagefault 0x5800 1, .vmfreephys 5] := by
    refine ⟨rfl, fun next taken => ?_⟩
    obtain rfl := Option.some.inj (step.symm.trans taken)
    exact ⟨(by decide : vmpagenum ((faulted 0x5800 0x5801).pagetab 5) = 5), fun next taken => trivial⟩
  refine (frames_owned_iff (· = 5) (by decide) oneFrame one_frame_tracked _ legal).mpr ⟨⟨by decide, ?_, fun _ => ?_⟩, fun next taken => ?_⟩
  · exact ⟨[5], ⟨rfl, List.isChain_cons_cons.mpr ⟨⟨rfl, rfl⟩, .singleton _⟩, List.nodup_singleton 5⟩, by decide, rfl⟩
  · exact (by decide : (0 : BitVec 32) + 1 ≠ 0)
  · obtain rfl := Option.some.inj (step.symm.trans taken)
    refine ⟨fun q low items rep inside => ?_, fun next taken => trivial⟩
    have empty : items = [] := List.head?_eq_none_iff.mp rep.first.symm
    exact List.not_mem_nil (empty ▸ inside)

end OsZero.Page

import OsZero.UserMem.Cells

set_option autoImplicit false

namespace OsZero.UserMem

open Links

def heads (mem : Mem) (bin : Membin) : Option Nat := (mem.bin bin).list

def homebin (buf : Membuf) : Membin :=
  if buf.tls then tlsbin buf.geo.type buf.geo.slot else globbin buf.geo.type buf.geo.slot

-- A thread owns a small or page buffer from its first block on, and never a
-- big one.
def Owner (buf : Membuf) : Prop :=
  (buf.geo.type = .big → buf.tls = false) ∧ (buf.geo.type ≠ .big → buf.tls = false → buf.nfree = buf.geo.nblk)

structure Binned (mem : Mem) (shelf : Membin → List Nat) : Prop where
  shelved : Shelved mem.link (heads mem) shelf
  unlocked : ∀ bin, (mem.bin bin).lk = false
  home : ∀ bin adr, adr ∈ shelf bin ↔ adr ∈ mem.maps ∧ 0 < (mem.buf adr).nfree ∧ bin = homebin (mem.buf adr)
  owner : ∀ adr ∈ mem.maps, Owner (mem.buf adr)

structure Still (mem after : Mem) : Prop where
  hash : after.hash = mem.hash
  maps : after.maps = mem.maps
  geo : ∀ adr, (after.buf adr).geo = (mem.buf adr).geo
  nfree : ∀ adr, (after.buf adr).nfree = (mem.buf adr).nfree
  stk : ∀ adr, (after.buf adr).stk = (mem.buf adr).stk
  stktop : ∀ adr, (after.buf adr).stktop = (mem.buf adr).stktop

theorem still_refl (mem : Mem) : Still mem mem := ⟨rfl, rfl, fun _ => rfl, fun _ => rfl, fun _ => rfl, fun _ => rfl⟩

theorem still_trans (mem middle after : Mem) (first : Still mem middle) (second : Still middle after) : Still mem after :=
  ⟨second.hash.trans first.hash, second.maps.trans first.maps, fun adr => (second.geo adr).trans (first.geo adr),
    fun adr => (second.nfree adr).trans (first.nfree adr), fun adr => (second.stk adr).trans (first.stk adr),
    fun adr => (second.stktop adr).trans (first.stktop adr)⟩

theorem settls_here (mem : Mem) (adr : Nat) (tls : Bool) :
    (memsettls mem adr tls).buf adr = { mem.buf adr with tls := tls } := Function.update_self adr _ _

theorem settls_elsewhere (mem : Mem) (adr other : Nat) (tls : Bool) (different : other ≠ adr) :
    (memsettls mem adr tls).buf other = mem.buf other := Function.update_of_ne different _ _

theorem still_settls (mem : Mem) (adr : Nat) (tls : Bool) : Still mem (memsettls mem adr tls) := by
  have same : ∀ {α : Type} (field : Membuf → α), field { mem.buf adr with tls := tls } = field (mem.buf adr) →
      ∀ other, field ((memsettls mem adr tls).buf other) = field (mem.buf other) := by
    intro α field here other
    by_cases equal : other = adr
    · rw [equal, settls_here]
      exact here
    · rw [settls_elsewhere mem adr other tls equal]
  exact ⟨rfl, rfl, same Membuf.geo rfl, same Membuf.nfree rfl, same Membuf.stk rfl, same Membuf.stktop rfl⟩

theorem heads_update (bins : Membin → Membkt) (bin : Membin) (bkt : Membkt) :
    (fun other => (Function.update bins bin bkt other).list) = Function.update (fun other => (bins other).list) bin bkt.list := by
  funext other
  by_cases same : other = bin
  · subst same
    rw [Function.update_self, Function.update_self]
  · rw [Function.update_of_ne same, Function.update_of_ne same]

theorem unlocked_update (bins : Membin → Membkt) (bin : Membin) (bkt : Membkt) (here : bkt.lk = false)
    (others : ∀ other, other ≠ bin → (bins other).lk = false) (other : Membin) : (Function.update bins bin bkt other).lk = false := by
  by_cases same : other = bin
  · subst same
    rwa [Function.update_self]
  · rw [Function.update_of_ne same]
    exact others other same

def Tally (mem : Mem) (shelf : Membin → List Nat) : Prop := ∀ bin, (mem.bin bin).nbuf = (shelf bin).length

theorem tally_update (mem after : Mem) (shelf : Membin → List Nat) (bin : Membin) (bkt : Membkt) (items : List Nat)
    (bins : after.bin = Function.update mem.bin bin bkt) (here : bkt.nbuf = items.length) (tally : Tally mem shelf) :
    Tally after (Function.update shelf bin items) := by
  intro other
  rw [bins]
  by_cases same : other = bin
  · subst same
    rwa [Function.update_self, Function.update_self]
  · rw [Function.update_of_ne same, Function.update_of_ne same]
    exact tally other

theorem tally_push (mem after : Mem) (shelf : Membin → List Nat) (bin : Membin) (adr : Nat)
    (bins : after.bin = (mempushbuf mem bin adr).bin) (tally : Tally mem shelf) :
    Tally after (Function.update shelf bin (adr :: shelf bin)) := by
  apply tally_update mem after shelf bin _ _ bins ?_ tally
  simp [tally bin]

theorem tally_remove (mem after : Mem) (shelf : Membin → List Nat) (bin : Membin) (adr : Nat) (front back : List Nat) (list : Option Nat)
    (split : shelf bin = front ++ adr :: back) (bins : after.bin = Function.update mem.bin bin ⟨list, false, (mem.bin bin).nbuf - 1⟩)
    (tally : Tally mem shelf) : Tally after (Function.update shelf bin (front ++ back)) := by
  apply tally_update mem after shelf bin _ _ bins ?_ tally
  simp only [tally bin, split, List.length_append, List.length_cons]
  omega

def lockedbin (mem : Mem) (bin : Membin) : Mem :=
  { mem with bin := Function.update mem.bin bin { mem.bin bin with lk := true } }

theorem lkbin_free (mem : Mem) (bin : Membin) (free : (mem.bin bin).lk = false) : memlkbin mem bin = some (lockedbin mem bin) := by
  simp [memlkbin, lockedbin, free]

theorem lockedbin_heads (mem : Mem) (bin : Membin) : heads (lockedbin mem bin) = heads mem := by
  unfold heads lockedbin
  rw [heads_update]
  exact Function.update_eq_self bin _

theorem relbin_free (mem : Mem) (bin : Membin) (free : (mem.bin bin).lk = false) : memrelbin mem bin = mem := by
  have same : ({ mem.bin bin with lk := false } : Membkt) = mem.bin bin := by
    rw [← free]
  unfold memrelbin
  rw [same, Function.update_eq_self]

theorem relbin_locked (mem : Mem) (bin : Membin) (free : (mem.bin bin).lk = false) : memrelbin (lockedbin mem bin) bin = mem := by
  have same : memrelbin (lockedbin mem bin) bin = memrelbin mem bin := by
    simp only [memrelbin, lockedbin, Function.update_self, Function.update_idem]
  rw [same, relbin_free mem bin free]

theorem pop_shelved (mem : Mem) (shelf : Membin → List Nat) (bin : Membin) (adr : Nat) (rest : List Nat)
    (shelved : Shelved mem.link (heads mem) shelf) (split : shelf bin = adr :: rest) :
    Shelved (mempopbuf mem bin adr).link (heads (mempopbuf mem bin adr)) (Function.update shelf bin rest) := by
  unfold heads mempopbuf
  rw [heads_update]
  exact shelved_pop mem.link (heads mem) shelf bin adr rest shelved split

theorem push_shelved (mem : Mem) (shelf : Membin → List Nat) (bin : Membin) (adr : Nat)
    (shelved : Shelved mem.link (heads mem) shelf) (absent : ∀ other, adr ∉ shelf other) :
    Shelved (mempushbuf mem bin adr).link (heads (mempushbuf mem bin adr)) (Function.update shelf bin (adr :: shelf bin)) := by
  unfold heads mempushbuf
  rw [heads_update]
  exact shelved_push mem.link (heads mem) shelf bin adr shelved absent

theorem dequeue_shelved (mem : Mem) (shelf : Membin → List Nat) (bin : Membin) (adr : Nat) (front back : List Nat)
    (shelved : Shelved mem.link (heads mem) shelf) (split : shelf bin = front ++ adr :: back) :
    Shelved (memclrprev (memdequeuebuftls mem adr bin) adr).link (heads (memdequeuebuftls mem adr bin))
      (Function.update shelf bin (front ++ back)) := by
  unfold heads memdequeuebuftls memsettls memclrprev
  rw [heads_update]
  exact shelved_unlink mem.link (heads mem) shelf bin adr front back shelved split

theorem still_dequeue (mem : Mem) (bin : Membin) (adr : Nat) : Still mem (memdequeuebuftls mem adr bin) := by
  obtain ⟨hash, maps, geo, nfree, stk, stktop⟩ := still_settls mem adr false
  exact ⟨hash, maps, geo, nfree, stk, stktop⟩

theorem clrprev_same (mem : Mem) (adr : Nat) (bare : mem.link.prev adr = none) : memclrprev mem adr = mem := by
  rw [memclrprev, set_prev_same mem.link adr none bare]

-- What is left to show when one buffer changes and at most it changes bins.
theorem binned_at (mem after : Mem) (shelf others : Membin → List Nat) (adr : Nat) (binned : Binned mem shelf)
    (shelved : Shelved after.link (heads after) others) (unlocked : ∀ bin, (after.bin bin).lk = false)
    (maps : ∀ other, other ≠ adr → (other ∈ after.maps ↔ other ∈ mem.maps)) (member : adr ∈ after.maps)
    (bufs : ∀ other, other ≠ adr → after.buf other = mem.buf other)
    (members : ∀ bin other, other ≠ adr → (other ∈ others bin ↔ other ∈ shelf bin))
    (mine : ∀ bin, adr ∈ others bin ↔ 0 < (after.buf adr).nfree ∧ bin = homebin (after.buf adr))
    (owner : Owner (after.buf adr)) : Binned after others := by
  refine ⟨shelved, unlocked, ?_, ?_⟩
  · intro bin other
    by_cases same : other = adr
    · rw [same, mine bin]
      simp [member]
    · rw [members bin other same, binned.home bin other, bufs other same, maps other same]
  · intro other there
    by_cases same : other = adr
    · rwa [same]
    · rw [bufs other same]
      exact binned.owner other ((maps other same).mp there)

def taken (mem : Mem) (hash : Hash) (adr : Nat) (buf : Membuf) : Mem :=
  { mem with hash := hash, buf := Function.update mem.buf adr buf }

theorem taken_here (mem : Mem) (hash : Hash) (adr : Nat) (buf : Membuf) : (taken mem hash adr buf).buf adr = buf :=
  Function.update_self adr _ _

theorem taken_elsewhere (mem : Mem) (hash : Hash) (adr other : Nat) (buf : Membuf) (different : other ≠ adr) :
    (taken mem hash adr buf).buf other = mem.buf other := Function.update_of_ne different _ _

theorem homebin_same (buf after : Membuf) (geo : after.geo = buf.geo) (tls : after.tls = buf.tls) : homebin after = homebin buf := by
  rw [homebin, geo, tls, homebin]

theorem binned_stay (mem : Mem) (shelf : Membin → List Nat) (hash : Hash) (adr : Nat) (buf : Membuf) (binned : Binned mem shelf)
    (member : adr ∈ mem.maps) (geo : buf.geo = (mem.buf adr).geo) (tls : buf.tls = (mem.buf adr).tls)
    (before : 0 < (mem.buf adr).nfree) (now : 0 < buf.nfree) (owner : Owner buf) :
    Binned (taken mem hash adr buf) shelf := by
  apply binned_at mem (taken mem hash adr buf) shelf shelf adr binned binned.shelved binned.unlocked (fun _ _ => Iff.rfl) member
    (fun other different => taken_elsewhere mem hash adr other buf different) (fun _ _ _ => Iff.rfl)
  · intro bin
    rw [binned.home bin adr, taken_here, homebin_same _ buf geo tls]
    simp [member, before, now]
  · rwa [taken_here]

theorem binned_pop (mem : Mem) (shelf : Membin → List Nat) (hash : Hash) (bin : Membin) (adr : Nat) (rest : List Nat) (buf : Membuf)
    (binned : Binned mem shelf) (member : adr ∈ mem.maps) (split : shelf bin = adr :: rest) (now : buf.nfree = 0) (owner : Owner buf) :
    Binned (mempopbuf (taken mem hash adr buf) bin adr) (Function.update shelf bin rest) := by
  obtain ⟨others, gone⟩ := removed_members mem.link (heads mem) shelf bin adr [] rest binned.shelved split
  apply binned_at mem _ shelf _ adr binned (pop_shelved (taken mem hash adr buf) shelf bin adr rest binned.shelved split) ?_
    (fun _ _ => Iff.rfl) member (fun other different => taken_elsewhere mem hash adr other buf different) others
  · intro other
    have here : (mempopbuf (taken mem hash adr buf) bin adr).buf adr = buf := taken_here mem hash adr buf
    rw [here, now]
    simpa using gone other
  · rwa [show (mempopbuf (taken mem hash adr buf) bin adr).buf adr = buf from taken_here mem hash adr buf]
  · exact unlocked_update mem.bin bin _ rfl fun other _ => binned.unlocked other

theorem binned_push (mem : Mem) (shelf : Membin → List Nat) (hash : Hash) (adr : Nat) (buf : Membuf) (binned : Binned mem shelf)
    (member : adr ∈ mem.maps) (before : (mem.buf adr).nfree = 0) (now : 0 < buf.nfree) (owner : Owner buf) :
    Binned (mempushbuf (taken mem hash adr buf) (homebin buf) adr)
      (Function.update shelf (homebin buf) (adr :: shelf (homebin buf))) := by
  have absent : ∀ bin, adr ∉ shelf bin := by
    intro bin here
    have available := ((binned.home bin adr).mp here).2.1
    omega
  obtain ⟨others, mine⟩ := pushed_members shelf (homebin buf) adr absent
  have here : (mempushbuf (taken mem hash adr buf) (homebin buf) adr).buf adr = buf := taken_here mem hash adr buf
  apply binned_at mem _ shelf _ adr binned (push_shelved (taken mem hash adr buf) shelf (homebin buf) adr binned.shelved absent) ?_
    (fun _ _ => Iff.rfl) member (fun other different => taken_elsewhere mem hash adr other buf different) others
  · intro bin
    rw [here, mine bin]
    simp [now]
  · rwa [here]
  · exact unlocked_update mem.bin (homebin buf) _ rfl fun other _ => binned.unlocked other

theorem push_unlocked (mem : Mem) (bin : Membin) (adr : Nat) : mempushbuf (lockedbin mem bin) bin adr = mempushbuf mem bin adr := by
  simp only [mempushbuf, lockedbin, Function.update_self, Function.update_idem]

theorem pop_unlocked (mem : Mem) (bin : Membin) (adr : Nat) : mempopbuf (lockedbin mem bin) bin adr = mempopbuf mem bin adr := by
  simp only [mempopbuf, lockedbin, Function.update_self, Function.update_idem]

-- The buffer moves to another bin, and with it from one owner to the other.
theorem binned_move (mem middle : Mem) (shelf : Membin → List Nat) (bin : Membin) (adr : Nat) (front back : List Nat) (buf : Membuf)
    (binned : Binned mem shelf) (member : adr ∈ mem.maps) (split : shelf bin = front ++ adr :: back) (maps : middle.maps = mem.maps)
    (here : middle.buf adr = buf) (elsewhere : ∀ other, other ≠ adr → middle.buf other = mem.buf other)
    (shelved : Shelved middle.link (heads middle) (Function.update shelf bin (front ++ back)))
    (unlocked : ∀ other, (middle.bin other).lk = false) (now : 0 < buf.nfree) (owner : Owner buf) :
    Binned (mempushbuf middle (homebin buf) adr) (Function.update (Function.update shelf bin (front ++ back)) (homebin buf)
      (adr :: Function.update shelf bin (front ++ back) (homebin buf))) := by
  obtain ⟨kept, gone⟩ := removed_members mem.link (heads mem) shelf bin adr front back binned.shelved split
  obtain ⟨others, mine⟩ := pushed_members (Function.update shelf bin (front ++ back)) (homebin buf) adr gone
  apply binned_at mem _ shelf _ adr binned (push_shelved middle _ (homebin buf) adr shelved gone) ?_
    (fun other _ => by rw [show (mempushbuf middle (homebin buf) adr).maps = mem.maps from maps])
    (by rw [show (mempushbuf middle (homebin buf) adr).maps = mem.maps from maps]; exact member) elsewhere
    (fun other item different => (others other item different).trans (kept other item different))
  · intro other
    rw [show (mempushbuf middle (homebin buf) adr).buf adr = buf from here, mine other]
    simp [now]
  · rwa [show (mempushbuf middle (homebin buf) adr).buf adr = buf from here]
  · exact unlocked_update middle.bin (homebin buf) _ rfl fun other _ => unlocked other

-- The thread's bin is empty when a buffer comes from the global one, so that
-- no prev is left to write.
theorem globtotls_push (mem : Mem) (type : Memtype) (slot adr : Nat) (bare : mem.link.prev adr = none)
    (empty : heads mem (tlsbin type slot) = none) (free : (mem.bin (tlsbin type slot)).lk = false) :
    memglobtotls mem type slot adr = mempushbuf (memsettls mem adr true) (tlsbin type slot) adr := by
  unfold heads at empty
  rw [memglobtotls, clrprev_same mem adr bare]
  simp only [mempushbuf, memsettls, empty, free, pushFront]

theorem globtotls_binned (mem : Mem) (shelf : Membin → List Nat) (hash : Hash) (type : Memtype) (slot adr : Nat) (rest : List Nat)
    (buf : Membuf) (binned : Binned mem shelf) (member : adr ∈ mem.maps) (split : shelf (globbin type slot) = adr :: rest)
    (empty : shelf (tlsbin type slot) = []) (kind : buf.geo.type = type ∧ buf.geo.slot = slot) (small : type ≠ .big)
    (now : 0 < buf.nfree) :
    ∃ others, Binned (memglobtotls (mempopbuf (taken mem hash adr buf) (globbin type slot) adr) type slot adr) others ∧
      (Tally mem shelf → Tally (memglobtotls (mempopbuf (taken mem hash adr buf) (globbin type slot) adr) type slot adr) others) := by
  obtain ⟨rfl, rfl⟩ := kind
  have different : tlsbin buf.geo.type buf.geo.slot ≠ globbin buf.geo.type buf.geo.slot := by
    intro same
    rw [← same, empty] at split
    cases split
  have shelved := pop_shelved (taken mem hash adr buf) shelf _ adr rest binned.shelved split
  have first := shelved.first (tlsbin buf.geo.type buf.geo.slot)
  rw [Function.update_of_ne different, empty] at first
  have bare := pop_bare mem.link adr
  have unlocked := unlocked_update mem.bin (globbin buf.geo.type buf.geo.slot)
    ⟨mem.link.next adr, false, (mem.bin (globbin buf.geo.type buf.geo.slot)).nbuf - 1⟩ rfl fun other _ => binned.unlocked other
  rw [globtotls_push _ _ _ adr bare first (unlocked _)]
  have home : homebin { buf with tls := true } = tlsbin buf.geo.type buf.geo.slot := rfl
  rw [← home]
  refine ⟨_, binned_move mem _ shelf _ adr [] rest { buf with tls := true } binned member split rfl ?_ ?_ shelved unlocked now ?_, ?_⟩
  · rw [settls_here]
    have here : (mempopbuf (taken mem hash adr buf) (globbin buf.geo.type buf.geo.slot) adr).buf adr = buf := taken_here mem hash adr buf
    rw [here]
  · intro other different
    rw [settls_elsewhere _ _ _ _ different]
    exact taken_elsewhere mem hash adr other buf different
  · exact ⟨fun big => absurd big small, fun _ impossible => by cases impossible⟩
  · intro tally
    exact tally_push _ _ _ _ adr rfl (tally_remove mem (mempopbuf (taken mem hash adr buf) _ adr) shelf _ adr [] rest _ split rfl tally)

-- A free buffer that the thread's bin has no use for goes back to the global
-- one.
theorem toglob_binned (mem : Mem) (shelf : Membin → List Nat) (hash : Hash) (type : Memtype) (slot adr : Nat) (buf : Membuf)
    (binned : Binned mem shelf) (member : adr ∈ mem.maps) (inside : adr ∈ shelf (tlsbin type slot))
    (kind : buf.geo.type = type ∧ buf.geo.slot = slot) (small : type ≠ .big) (now : 0 < buf.nfree) (whole : buf.nfree = buf.geo.nblk) :
    ∃ after others, memtoglob (memdequeuebuftls (taken mem hash adr buf) adr (tlsbin type slot)) type slot adr = some after ∧
      Still (taken mem hash adr buf) after ∧ Binned after others ∧ (Tally mem shelf → Tally after others) := by
  obtain ⟨rfl, rfl⟩ := kind
  obtain ⟨front, back, split⟩ := List.append_of_mem inside
  generalize dequeued : memdequeuebuftls (taken mem hash adr buf) adr (tlsbin buf.geo.type buf.geo.slot) = middle
  have unlocked : ∀ other, (middle.bin other).lk = false := by
    rw [← dequeued]
    exact unlocked_update mem.bin _ _ rfl fun other _ => binned.unlocked other
  have shelved : Shelved (memclrprev middle adr).link (heads middle)
      (Function.update shelf (tlsbin buf.geo.type buf.geo.slot) (front ++ back)) := by
    rw [← dequeued]
    exact dequeue_shelved (taken mem hash adr buf) shelf _ adr front back binned.shelved split
  have here : (memsettls (memclrprev middle adr) adr false).buf adr = { buf with tls := false } := by
    rw [settls_here, ← dequeued]
    change ({ (memsettls _ adr false).buf adr with tls := false } : Membuf) = _
    rw [settls_here]
    change ({ (taken mem hash adr buf).buf adr with tls := false } : Membuf) = _
    rw [taken_here]
  have elsewhere : ∀ other, other ≠ adr → (memsettls (memclrprev middle adr) adr false).buf other = mem.buf other := by
    intro other different
    rw [settls_elsewhere _ _ _ _ different, ← dequeued]
    change (memsettls _ adr false).buf other = _
    rw [settls_elsewhere _ _ _ _ different]
    exact taken_elsewhere mem hash adr other buf different
  have home : homebin { buf with tls := false } = globbin buf.geo.type buf.geo.slot := rfl
  have moved := binned_move mem (memsettls (memclrprev middle adr) adr false) shelf _ adr front back { buf with tls := false } binned
    member split (by rw [← dequeued]; rfl) here elsewhere shelved unlocked now ⟨fun _ => rfl, fun _ _ => whole⟩
  rw [home] at moved
  refine ⟨_, _, ?_, ?_, moved, ?_⟩
  · rw [memtoglob, lkbin_free middle _ (unlocked _), Option.map_some]
    exact congrArg some (push_unlocked (memsettls (memclrprev middle adr) adr false) _ adr)
  · have first : Still (taken mem hash adr buf) middle := by
      rw [← dequeued]
      exact still_dequeue (taken mem hash adr buf) _ adr
    have second := still_settls (memclrprev middle adr) adr false
    have both := still_trans _ _ _ first ⟨second.hash, second.maps, second.geo, second.nfree, second.stk, second.stktop⟩
    exact ⟨both.hash, both.maps, both.geo, both.nfree, both.stk, both.stktop⟩
  · intro tally
    have removed : Tally middle (Function.update shelf (tlsbin buf.geo.type buf.geo.slot) (front ++ back)) := by
      rw [← dequeued]
      exact tally_remove mem _ shelf _ adr front back _ split rfl tally
    exact tally_push middle _ _ _ adr rfl removed

theorem mapbuf_shelved (mem : Mem) (shelf : Membin → List Nat) (type : Memtype) (slot adr : Nat) (binned : Binned mem shelf)
    (new : adr ∉ mem.maps) :
    (∀ bin, adr ∉ shelf bin) ∧ (memmapbuf mem type slot adr).link.prev adr = none ∧
      Shelved (memmapbuf mem type slot adr).link (heads mem) shelf := by
  have absent : ∀ bin, adr ∉ shelf bin := fun bin here => new ((binned.home bin adr).mp here).1
  have bare := binned.shelved.off adr absent
  have link : (memmapbuf mem type slot adr).link = mem.link.setNext adr none := by
    rw [memmapbuf]
    dsimp only
    rw [set_prev_same mem.link adr none bare]
  rw [link]
  exact ⟨absent, bare, shelved_setNext mem.link (heads mem) shelf adr none binned.shelved absent⟩

theorem new_binned (mem after : Mem) (shelf : Membin → List Nat) (type : Memtype) (slot adr : Nat) (buf : Membuf)
    (binned : Binned mem shelf) (new : adr ∉ mem.maps) (link : after.link = (memmapbuf mem type slot adr).link)
    (bins : after.bin = mem.bin) (maps : after.maps = adr :: mem.maps) (here : after.buf adr = buf)
    (elsewhere : ∀ other, other ≠ adr → after.buf other = mem.buf other) (owner : Owner buf) :
    (buf.nfree = 0 → Binned after shelf) ∧
      (0 < buf.nfree → ∃ others, Binned (mempushbuf after (homebin buf) adr) others ∧
        (Tally mem shelf → Tally (mempushbuf after (homebin buf) adr) others)) := by
  obtain ⟨absent, -, linked⟩ := mapbuf_shelved mem shelf type slot adr binned new
  have shelved : Shelved after.link (heads after) shelf := by
    have same : heads after = heads mem := by
      unfold heads
      rw [bins]
    rw [link, same]
    exact linked
  have unlocked : ∀ bin, (after.bin bin).lk = false := by
    rw [bins]
    exact binned.unlocked
  have members : ∀ other, other ≠ adr → (other ∈ after.maps ↔ other ∈ mem.maps) := by
    intro other different
    rw [maps, List.mem_cons]
    exact or_iff_right different
  have member : adr ∈ after.maps := by
    rw [maps]
    exact List.mem_cons_self
  constructor
  · intro full
    apply binned_at mem after shelf shelf adr binned shelved unlocked members member elsewhere (fun _ _ _ => Iff.rfl)
    · intro bin
      rw [here, full]
      simpa using absent bin
    · rwa [here]
  · intro available
    obtain ⟨others, mine⟩ := pushed_members shelf (homebin buf) adr absent
    refine ⟨_, binned_at mem _ shelf _ adr binned (push_shelved after shelf (homebin buf) adr shelved absent) ?_ members member
      elsewhere others ?_ ?_, ?_⟩
    · exact unlocked_update after.bin (homebin buf) _ rfl fun other _ => unlocked other
    · intro bin
      rw [show (mempushbuf after (homebin buf) adr).buf adr = buf from here, mine bin]
      simp [available]
    · rwa [show (mempushbuf after (homebin buf) adr).buf adr = buf from here]
    · intro tally
      apply tally_push after _ shelf _ adr rfl
      intro bin
      rw [bins]
      exact tally bin

theorem tls_not_glob (type other : Memtype) (slot place : Nat) : tlsbin type slot ≠ globbin other place := by
  cases type <;> cases other <;> simp [tlsbin, globbin] <;> split <;> simp

theorem tlsbin_home (buf : Membuf) (type : Memtype) (slot : Nat) (owner : Owner buf) (small : type ≠ .big)
    (home : tlsbin type slot = homebin buf) : buf.tls = true ∧ buf.geo.type = type ∧ buf.geo.slot = slot := by
  cases tls : buf.tls with
  | false =>
      rw [homebin, tls] at home
      exact absurd home (tls_not_glob _ _ _ _)
  | true =>
      rw [homebin, tls, if_pos rfl] at home
      have notBig : buf.geo.type ≠ .big := by
        intro big
        rw [owner.1 big] at tls
        cases tls
      generalize buf.geo.type = other at *
      cases type <;> cases other <;> simp_all [tlsbin]

theorem globbin_home (buf : Membuf) (type : Memtype) (slot : Nat) (slots : Slots type slot) (own : Slots buf.geo.type buf.geo.slot)
    (home : globbin type slot = homebin buf) : buf.tls = false ∧ buf.geo.type = type ∧ buf.geo.slot = slot := by
  cases tls : buf.tls with
  | true =>
      rw [homebin, tls, if_pos rfl] at home
      exact absurd home.symm (tls_not_glob _ _ _ _)
  | false =>
      rw [homebin, tls, if_neg (by decide)] at home
      refine ⟨rfl, ?_⟩
      have bigbin : ∀ place, Slots .big place → globbin .big place = .bigbin place := fun place fits => if_pos (Nat.lt_succ_of_le fits.2)
      generalize buf.geo.type = other at *
      cases type with
      | small => cases other <;> simp_all [globbin]
      | page =>
          cases other with
          | big =>
              rw [bigbin _ own] at home
              cases home
          | _ => simp_all [globbin]
      | big =>
          rw [bigbin slot slots] at home
          cases other with
          | big =>
              rw [bigbin _ own] at home
              cases home
              exact ⟨rfl, rfl⟩
          | _ => cases home

end OsZero.UserMem

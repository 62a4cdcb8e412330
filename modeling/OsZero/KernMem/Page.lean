import OsZero.Deq.Single
import Mathlib.Data.Nat.Log

set_option autoImplicit false

namespace OsZero.Page

open Links Deq

-- The ia32 sizes; a page table entry, a frame and vmphystab have the same numbers.
def ptrbits : Nat := 32
abbrev Pagenum := BitVec 20

def vmpagenum (adr : BitVec 32) : Pagenum := adr.extractLsb' 12 20

def vmpagemask : BitVec 32 := 0xfffff000
def pagepres : BitVec 32 := 0x00000001
def pageswapped : BitVec 32 := 0x00000200
def pagebuf : BitVec 32 := 0x00000400
def pagewired : BitVec 32 := 0x00000800
def pagesysflags : BitVec 32 := pageswapped ||| pagebuf ||| pagewired
def pagefltflgmask : BitVec 32 := 0x0000001f
def pagefltadrmask : BitVec 32 := 0xffffffe0

structure Physpage where
  nref : BitVec 32
  nflt : BitVec 32

-- The links of vmphystab are shared by vmphysqueue and the queues of vmlrutab. A lock
-- that is taken is true.
structure Vm where
  pagetab : Pagenum → BitVec 32
  page : Pagenum → Physpage
  pagelk : Pagenum → Bool
  links : Heap Pagenum
  physlk : Bool
  physqueue : Option Pagenum
  lrulk : Nat → Bool
  lrulist : Nat → Option Pagenum
  nmap : BitVec 32
  nwire : BitVec 32

def lzerol (u : BitVec 32) : Nat := if u = 0 then 32 else 31 - Nat.log 2 u.toNat

def pagecalcqid (page : Physpage) : Nat := max (ptrbits - 1) (lzerol page.nflt)

def Vm.set (vm : Vm) (id : Pagenum) (change : Physpage → Physpage) : Vm := { vm with page := Function.update vm.page id (change (vm.page id)) }

-- fmtxlk and fmtxunlk; nobody else gives a taken lock back. There are ptrbits queues.
def lockphys (vm : Vm) : Option Vm := if vm.physlk then none else some { vm with physlk := true }

def unlockphys (vm : Vm) : Vm := { vm with physlk := false }

def lockpage (vm : Vm) (id : Pagenum) : Option Vm := if vm.pagelk id then none else some { vm with pagelk := Function.update vm.pagelk id true }

def unlockpage (vm : Vm) (id : Pagenum) : Vm := { vm with pagelk := Function.update vm.pagelk id false }

def locklru (vm : Vm) (q : Nat) : Option Vm :=
  if q < ptrbits then if vm.lrulk q then none else some { vm with lrulk := Function.update vm.lrulk q true } else none

def unlocklru (vm : Vm) (q : Nat) : Vm := { vm with lrulk := Function.update vm.lrulk q false }

def pushphys (vm : Vm) (id : Pagenum) : Option Vm :=
  (deqpush id ⟨vm.links, vm.physqueue⟩).map fun queue => { vm with links := queue.links, physqueue := queue.deq }

def popphys (vm : Vm) : Option (Vm × Option Pagenum) :=
  (deqpop ⟨vm.links, vm.physqueue⟩).map fun got => ({ vm with links := got.1.links, physqueue := got.1.deq }, got.2)

def pushlru (vm : Vm) (q : Nat) (id : Pagenum) : Option Vm :=
  (deqpush id ⟨vm.links, vm.lrulist q⟩).map fun queue => { vm with links := queue.links, lrulist := Function.update vm.lrulist q queue.deq }

def getlastlru (vm : Vm) (q : Nat) : Option (Vm × Option Pagenum) :=
  (deqgetlast ⟨vm.links, vm.lrulist q⟩).map fun got => ({ vm with links := got.1.links, lrulist := Function.update vm.lrulist q got.1.deq }, got.2)

-- The lock of the queue the page is taken from stays locked.
def requeue (vm : Vm) (q : Nat) (id : Pagenum) : Option Vm :=
  let vm := vm.set id fun page => { page with nflt := page.nflt + 1 }
  let qid := pagecalcqid (vm.page id)
  if qid ≠ q then ((locklru vm q).bind fun vm => pushlru vm qid id).map fun vm => unlocklru vm qid
  else pushlru vm qid id

def evictFrom : Nat → Nat → Vm → Option (Vm × Option Pagenum)
  | 0, _, vm => some (vm, none)
  | left + 1, q, vm => do
      let locked ← locklru vm q
      let got ← getlastlru locked q
      got.2.elim (evictFrom left (q + 1) (unlocklru got.1 q)) fun id => (requeue got.1 q id).map fun vm => (vm, some id)

-- do ... while (!found), for at most as many rounds.
def evict : Nat → Vm → Option (Vm × Pagenum)
  | 0, _ => none
  | rounds + 1, vm => (evictFrom ptrbits 0 vm).bind fun got => got.2.elim (evict rounds got.1) fun id => some (got.1, id)

def pageallocphys (rounds : Nat) (vm : Vm) : Option (Vm × Pagenum) := do
  let locked ← lockphys vm
  let got ← popphys locked
  let vm := unlockphys got.1
  got.2.elim (evict rounds vm) fun id => some (vm, id)

def pagefreephys (vm : Vm) (adr : BitVec 32) : Option Vm := do
  let vm ← lockphys vm
  let id := vmpagenum adr
  let vm ← lockpage vm id
  let vm := vm.set id fun page => { page with nref := page.nref - 1 }
  let vm ← (if (vm.page id).nref = 0 then pushphys vm id else some vm)
  some (unlockphys (unlockpage vm id))

def fault (vm : Vm) (id : Pagenum) (adr flg : BitVec 32) : Option Vm :=
  if flg &&& pagewired ≠ 0 then some { vm with nwire := vm.nwire + 1 }
  else
    let vm := { vm with nmap := vm.nmap + 1 }.set id fun page => { page with nflt := page.nflt + 1 }
    if adr &&& pagewired = 0 then
      let qid := pagecalcqid (vm.page id)
      ((locklru vm qid).bind fun vm => pushlru vm qid id).map fun vm => unlocklru vm qid
    else some vm

def vmpagefault (rounds : Nat) (vm : Vm) (adr : BitVec 32) : Option Vm :=
  let pte := vmpagenum adr
  let flg := vm.pagetab pte &&& (pagefltflgmask ||| pagesysflags)
  if adr &&& ~~~(pagefltadrmask ||| pagesysflags) = 0 then do
    let got ← pageallocphys rounds vm
    let vm ← lockpage got.1 got.2
    let vm := vm.set got.2 fun page => { page with nref := page.nref + 1 }
    let vm ← fault vm got.2 adr flg
    let vm := unlockpage vm got.2
    some { vm with pagetab := Function.update vm.pagetab pte (adr ||| flg ||| pagepres) }
  else some vm

-- vmfreephys of one page, which is how a frame is given back.
def vmfreephys (vm : Vm) (pte : Pagenum) : Option Vm :=
  let adr := vm.pagetab pte &&& vmpagemask
  if adr = 0 then some vm
  else
    let vm := if vm.pagetab pte &&& pageswapped ≠ 0 then vm
      else if vm.pagetab pte &&& pagewired = 0 then { vm with nmap := vm.nmap - 1 } else { vm with nwire := vm.nwire - 1 }
    (pagefreephys vm adr).map fun vm => { vm with pagetab := Function.update vm.pagetab pte 0 }

inductive Op where
  | vmpagefault (adr : BitVec 32) (rounds : Nat)
  | vmfreephys (pte : Pagenum)

def vmStep (vm : Vm) : Op → Option Vm
  | .vmpagefault adr rounds => vmpagefault rounds vm adr
  | .vmfreephys pte => vmfreephys vm pte

end OsZero.Page

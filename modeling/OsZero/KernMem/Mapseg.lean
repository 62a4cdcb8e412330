import OsZero.KernMem.Zone

set_option autoImplicit false

namespace OsZero.Mapseg

open Page Zone

def pagewrite : BitVec 32 := 0x00000002
def pageuser : BitVec 32 := 0x00000004
def pagenocache : BitVec 32 := 0x00000010
def hicore : BitVec 32 := 1024 * 1024
def dmabufbase : BitVec 32 := 0x00800000
def dmabufsize : BitVec 32 := 8 * (1024 * 1024)
def pagetabsize : BitVec 32 := 1024 * 1024 * 4
def kernvirtbase : BitVec 32 := 0xc0000000

def vmlinkadr (adr : BitVec 32) : BitVec 32 := adr - kernvirtbase

structure Segment where
  virt : BitVec 32
  phys : BitVec 32
  lim : BitVec 32
  flg : BitVec 32

-- The addresses the linker gives. SMP is 0 in conf.h, and there is one stack of a page
-- for each of the two modes.
structure Layout where
  pagetab : BitVec 32
  kernpagedir : BitVec 32
  kernsysstktab : BitVec 32
  kernusrstktab : BitVec 32
  eboot : BitVec 32
  usysinfo : BitVec 32
  eusysinfo : BitVec 32
  dmabuf : BitVec 32
  text : BitVec 32
  textvirt : BitVec 32
  etextvirt : BitVec 32
  data : BitVec 32
  datavirt : BitVec 32
  ebssvirt : BitVec 32

-- The calls of vmmapseg, in their order.
def segments (link : Layout) : List Segment :=
  [⟨link.kernsysstktab, link.kernsysstktab, link.kernsysstktab + pagesize, pagepres ||| pagewrite⟩,
   ⟨link.kernusrstktab, link.kernusrstktab, link.kernusrstktab + pagesize, pageuser ||| pagepres ||| pagewrite⟩,
   ⟨0, 0, hicore, pagepres ||| pagewrite ||| pagenocache ||| pagewired⟩,
   ⟨hicore, hicore, link.eboot, pagepres ||| pagewrite⟩,
   ⟨link.usysinfo, link.usysinfo, link.eusysinfo, pagepres ||| pagewrite⟩,
   ⟨link.dmabuf, dmabufbase, link.dmabuf + dmabufsize, pagepres ||| pagewrite ||| pagenocache ||| pagewired⟩,
   ⟨link.pagetab, link.pagetab, link.pagetab + pagetabsize, pagepres ||| pagewrite ||| pagewired⟩,
   ⟨link.text, vmlinkadr link.textvirt, link.etextvirt, pagepres⟩,
   ⟨link.data, vmlinkadr link.datavirt, link.ebssvirt, pagepres ||| pagewrite⟩]

-- An entry with a frame's address and exactly the flag bits flg.
def Entry (pte frame flg : BitVec 32) : Prop := pte &&& vmpagemask = frame &&& vmpagemask ∧ pte &&& ~~~vmpagemask = flg

def Fits (phys flg : BitVec 32) : Prop := flg &&& vmpagemask = 0 ∧ phys &&& ~~~vmpagemask &&& ~~~flg = 0

-- How many entries the length alone asks for.
def covered (virt lim : BitVec 32) : Nat := (lim.toNat - virt.toNat + 4095) % 4294967296 / 4096

def Segment.Holds (seg : Segment) (adr : BitVec 32) : Prop := seg.virt ≤ adr ∧ adr < seg.lim

def Apart (one two : Segment) : Prop := one.lim ≤ two.virt ∨ two.lim ≤ one.virt

instance (one two : Segment) : Decidable (Apart one two) := inferInstanceAs (Decidable (_ ∨ _))

structure Aligned (seg : Segment) : Prop where
  order : seg.virt ≤ seg.lim
  virt : seg.virt.toNat % 4096 = 0
  phys : seg.phys.toNat % 4096 = 0
  lim : seg.lim.toNat % 4096 = 0

-- Segments of whole pages that have no page in common.
structure Placed (segs : List Segment) : Prop where
  aligned : ∀ seg ∈ segs, Aligned seg
  apart : segs.Pairwise Apart

def Segment.entry (seg : Segment) (page : Nat) : BitVec 32 := (seg.phys + BitVec.ofNat 32 ((page - seg.virt.toNat / 4096) * 4096)) ||| seg.flg

instance (seg : Segment) : Decidable (Aligned seg) :=
  decidable_of_iff (seg.virt ≤ seg.lim ∧ seg.virt.toNat % 4096 = 0 ∧ seg.phys.toNat % 4096 = 0 ∧ seg.lim.toNat % 4096 = 0)
    ⟨fun parts => ⟨parts.1, parts.2.1, parts.2.2.1, parts.2.2.2⟩, fun aligned => ⟨aligned.order, aligned.virt, aligned.phys, aligned.lim⟩⟩

end OsZero.Mapseg

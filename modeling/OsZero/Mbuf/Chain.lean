import OsZero.Mbuf.Copy

set_option autoImplicit false

namespace OsZero.Mbuf

-- The inline bytes of an mbuf, and an external buffer.
inductive Region
  | mbuf (id : Nat)
  | ext (id : Nat)
  deriving DecidableEq

abbrev Adr := Ptr Region

def mbufsize : Nat := 4096
def sizeofmemhdr : Nat := 48
def sizeofmempkt : Nat := 40
def mbufdatalen : Nat := mbufsize - sizeofmemhdr
def mbufcopyall : Int := -1
def mbufextbit : BitVec 64 := 1
def mbufpkthdrbit : BitVec 64 := 2
def mbufpktcopybits : BitVec 32 := 0x003ffcfe

structure Mempkt where
  rcvif : Nat
  len : Int
  hdr : Option Adr
  flg : BitVec 32
  chksum : BitVec 32
  aux : Option Nat
  deriving DecidableEq

structure Memext where
  buf : Adr
  nref : Int
  size : Int
  rel : Nat
  args : Nat
  type : Int
  deriving DecidableEq

structure Membuf where
  data : Adr
  len : Nat
  type : Int
  flg : BitVec 64
  next : Option Nat
  nextpkt : Option Nat
  pkt : Mempkt
  ext : Memext
  deriving DecidableEq

-- The mbufs below fresh have been handed out.
structure Mem where
  bufs : Nat → Membuf
  bytes : Bytes Region
  fresh : Nat

def Mem.set (mem : Mem) (mb : Nat) (change : Membuf → Membuf) : Mem := { mem with bufs := Function.update mem.bufs mb (change (mem.bufs mb)) }

def mbdata (mb : Nat) : Adr := ⟨.mbuf mb, 0⟩

def mbpktbuf (mb : Nat) : Adr := ⟨.mbuf mb, sizeofmempkt⟩

def isext (buf : Membuf) : Bool := decide (buf.flg &&& mbufextbit ≠ 0)

def ispkthdr (buf : Membuf) : Bool := decide (buf.flg &&& mbufpkthdrbit ≠ 0)

def memgetbuf (mem : Mem) (type : Int) : Mem × Nat :=
  ({ mem with fresh := mem.fresh + 1 }.set mem.fresh
    (fun buf => { buf with data := mbdata mem.fresh, len := 0, type := type, flg := 0, next := none, nextpkt := none }), mem.fresh)

def memcpypkthdr (mem : Mem) (src dest : Nat) : Mem :=
  let spkt := (mem.bufs src).pkt
  let mem := mem.set dest (fun buf => { buf with
    data := mbpktbuf src, flg := (spkt.flg &&& mbufpktcopybits).zeroExtend 64, pkt := spkt })
  mem.set src (fun buf => { buf with pkt := { buf.pkt with aux := none } })

-- The mbuf that is passed over ends the search where the offset lies in it.
def skipLoop : Nat → Mem → Option Nat → Nat → Option (Option Nat × Nat)
  | 0, _, _, _ => none
  | fuel + 1, mem, buf, ofs =>
    if 0 < ofs then
      buf.bind (fun mb => if ofs < (mem.bufs mb).len then some (buf, ofs) else skipLoop fuel mem (mem.bufs mb).next (ofs - (mem.bufs mb).len))
    else some (buf, ofs)

-- *hi = mb, where hi is top or the link of the mbuf before.
def setHi (mem : Mem) (hi top : Option Nat) (mb : Nat) : Mem × Option Nat :=
  hi.elim (mem, some mb) (fun last => (mem.set last (fun buf => { buf with next := some mb }), top))

def sharepkt (mem : Mem) (buf mb ofs : Nat) : Mem :=
  let mem := mem.set mb (fun copy => { copy with
    data := (mem.bufs buf).data.add ofs, ext := (mem.bufs buf).ext, flg := copy.flg ||| mbufextbit })
  mem.set buf (fun src => { src with ext := { src.ext with nref := src.ext.nref + 1 } })

def copybuf (mem : Mem) (buf mb ofs : Nat) : Option Mem :=
  if isext (mem.bufs buf) then some (sharepkt mem buf mb ofs)
  else (kbcopy mem.bytes ((mem.bufs buf).data.add ofs) (mem.bufs mb).data (mem.bufs mb).len).map (fun bytes => { mem with bytes := bytes })

def copyhdr (mem : Mem) (buf mb ofs0 : Nat) (nb : Int) : Mem :=
  let mem := memcpypkthdr mem buf mb
  mem.set mb (fun copy => { copy with pkt := { copy.pkt with len := if nb = mbufcopyall then copy.pkt.len - ofs0 else nb } })

-- One mbuf of the copy; it is the one that was fresh.
def copyStep (mem : Mem) (cpyhdr : Bool) (ofs0 src ofs : Nat) (nb : Int) (hi top : Option Nat) : Option (Mem × Option Nat) :=
  let got := memgetbuf mem (mem.bufs src).type
  let mb := got.2
  let len := (mem.bufs src).len
  let linked := setHi got.1 hi top mb
  let mem := if cpyhdr then copyhdr linked.1 src mb ofs0 nb else linked.1
  let mem := mem.set mb (fun copy => { copy with len := min nb.toNat (len - ofs) })
  (copybuf mem src mb ofs).map (fun mem => (mem, linked.2))

def copyLoop : Nat → Mem → Bool → Nat → Option Nat → Nat → Int → Option Nat → Option Nat → Option (Mem × Option Nat)
  | 0, _, _, _, _, _, _, _, _ => none
  | fuel + 1, mem, cpyhdr, ofs0, buf, ofs, nb, hi, top =>
    if nb > 0 then
      buf.elim (some (mem, top)) (fun src => (copyStep mem cpyhdr ofs0 src ofs nb hi top).bind (fun next =>
        let left := if nb ≠ mbufcopyall then nb - (next.1.bufs mem.fresh).len else nb
        copyLoop fuel next.1 false ofs0 (next.1.bufs src).next 0 left (some mem.fresh) next.2))
    else some (mem, top)

def memcpychain (fuel : Nat) (mem : Mem) (buf ofs0 : Nat) (nb : Int) : Option (Mem × Option Nat) :=
  let cpyhdr := decide (ofs0 = 0) && ispkthdr (mem.bufs buf)
  (skipLoop fuel mem (some buf) ofs0).bind (fun place => copyLoop fuel mem cpyhdr ofs0 place.1 place.2 nb none none)

-- mbadr is where the data begins, as in memcpychain at offset zero.
def pktLoop : Nat → Mem → Option Nat → Nat → Option Mem
  | 0, _, _, _ => none
  | fuel + 1, mem, buf, mb1 =>
    buf.elim (some mem) (fun src =>
      let got := memgetbuf mem (mem.bufs src).type
      let mb2 := got.2
      let mem := got.1.set mb1 (fun last => { last with next := some mb2 })
      let mem := mem.set mb2 (fun copy => { copy with len := (mem.bufs src).len })
      (copybuf mem src mb2 0).bind (fun mem => pktLoop fuel mem (mem.bufs src).next mb2))

def memcpypkt (fuel : Nat) (mem : Mem) (buf : Nat) : Option (Mem × Option Nat) :=
  let got := memgetbuf mem (mem.bufs buf).type
  let mb1 := got.2
  let mem := memcpypkthdr got.1 buf mb1
  let mem := mem.set mb1 (fun copy => { copy with len := (mem.bufs buf).len })
  let lead := (mem.bufs buf).data.ofs - sizeofmempkt
  let mem := if isext (mem.bufs buf) then mem else mem.set mb1 (fun copy => { copy with data := (mbpktbuf mb1).add lead })
  (copybuf mem buf mb1 0).bind (fun mem => (pktLoop fuel mem (mem.bufs buf).next mb1).map (fun mem => (mem, some mb1)))

end OsZero.Mbuf

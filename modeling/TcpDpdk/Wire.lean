import Mathlib.Tactic.IntervalCases

/-!
# Headers, frames and packets

Header fields hold what a little-endian host finds in them: a field declared
`rte_be32_t` is read and written through the byte swaps below. A `Frame` is what
`send_p` hands to the driver, a `Packet` what the receive loop reads of a frame,
an `Mbuf` the raw memory of a received one.
-/

namespace TcpDpdk

abbrev Byte := BitVec 8

/-! ## Byte order -/

def rteBswap16 (x : BitVec 16) : BitVec 16 := (x <<< 8) ||| (x >>> 8)

def rteBswap32 (x : BitVec 32) : BitVec 32 :=
  (x <<< 24) ||| ((x &&& 0xff00#32) <<< 8) ||| ((x >>> 8) &&& 0xff00#32) ||| (x >>> 24)

def rteCpuToBe16 (x : BitVec 16) : BitVec 16 := rteBswap16 x
def rteBeToCpu16 (x : BitVec 16) : BitVec 16 := rteBswap16 x
def rteCpuToBe32 (x : BitVec 32) : BitVec 32 := rteBswap32 x
def rteBeToCpu32 (x : BitVec 32) : BitVec 32 := rteBswap32 x

@[simp] theorem rteBeToCpu16_rteCpuToBe16 (x : BitVec 16) : rteBeToCpu16 (rteCpuToBe16 x) = x := by
  ext i hi
  simp only [rteBeToCpu16, rteCpuToBe16, rteBswap16]
  interval_cases i <;> simp

@[simp] theorem rteBeToCpu32_rteCpuToBe32 (x : BitVec 32) : rteBeToCpu32 (rteCpuToBe32 x) = x := by
  ext i hi
  simp only [rteBeToCpu32, rteCpuToBe32, rteBswap32]
  interval_cases i <;> simp

/-! ## Memory -/

abbrev Mem := Nat → Byte

def Mem.bytes (m : Mem) (n : Nat) : List Byte := (List.range n).map m

@[simp] theorem Mem.length_bytes (m : Mem) (n : Nat) : (m.bytes n).length = n := by
  simp [Mem.bytes]

/-- A null pointer, which is only ever passed along with a size of zero. -/
def Mem.null : Mem := fun _ => 0

def load16 (m : Mem) (i : Nat) : BitVec 16 :=
  (m i).setWidth 16 ||| ((m (i + 1)).setWidth 16 <<< 8)

def load32 (m : Mem) (i : Nat) : BitVec 32 :=
  (load16 m i).setWidth 32 ||| ((load16 m (i + 2)).setWidth 32 <<< 16)

def load48 (m : Mem) (i : Nat) : BitVec 48 :=
  (load32 m i).setWidth 48 ||| ((load16 m (i + 4)).setWidth 48 <<< 32)

def store16 (x : BitVec 16) : List Byte := [x.setWidth 8, (x >>> 8).setWidth 8]

def store32 (x : BitVec 32) : List Byte := store16 (x.setWidth 16) ++ store16 ((x >>> 16).setWidth 16)

@[simp] theorem length_store16 (x : BitVec 16) : (store16 x).length = 2 := rfl

@[simp] theorem length_store32 (x : BitVec 32) : (store32 x).length = 4 := rfl

/-! ## Headers -/

structure EtherHdr where
  dAddr : BitVec 48
  sAddr : BitVec 48
  etherType : BitVec 16
  deriving DecidableEq

structure Ipv4Hdr where
  versionIhl : Byte
  typeOfService : Byte
  totalLength : BitVec 16
  packetId : BitVec 16
  fragmentOffset : BitVec 16
  timeToLive : Byte
  nextProtoId : Byte
  hdrChecksum : BitVec 16
  srcAddr : BitVec 32
  dstAddr : BitVec 32
  deriving DecidableEq

structure TcpHdr where
  srcPort : BitVec 16
  dstPort : BitVec 16
  sentSeq : BitVec 32
  recvAck : BitVec 32
  dataOff : Byte
  tcpFlags : Byte
  rxWin : BitVec 16
  cksum : BitVec 16
  tcpUrp : BitVec 16
  deriving DecidableEq

def rteEtherTypeIpv4 : BitVec 16 := 0x0800
def ipprotoTcp : Byte := 6
def ipDefttl : Byte := 64
def ipVhlDef : Byte := 0x45

def rteTcpFinFlag : Byte := 0x01
def rteTcpSynFlag : Byte := 0x02
def rteTcpRstFlag : Byte := 0x04
def rteTcpPshFlag : Byte := 0x08
def rteTcpAckFlag : Byte := 0x10

def TcpHdr.has (h : TcpHdr) (flag : Byte) : Bool := h.tcpFlags &&& flag ≠ 0

theorem TcpHdr.has_eq_false {h : TcpHdr} {flag : Byte} :
    h.has flag = false ↔ h.tcpFlags &&& flag = 0 := by
  unfold TcpHdr.has
  rw [decide_eq_false_iff_not, not_not]

/-- `((data_off) >> 4) << 2`: the length of the TCP header in bytes. -/
def TcpHdr.hdrLen (h : TcpHdr) : Byte := h.dataOff >>> 4 <<< 2

def EtherHdr.load (m : Mem) (i : Nat) : EtherHdr where
  dAddr := load48 m i
  sAddr := load48 m (i + 6)
  etherType := load16 m (i + 12)

def Ipv4Hdr.load (m : Mem) (i : Nat) : Ipv4Hdr where
  versionIhl := m i
  typeOfService := m (i + 1)
  totalLength := load16 m (i + 2)
  packetId := load16 m (i + 4)
  fragmentOffset := load16 m (i + 6)
  timeToLive := m (i + 8)
  nextProtoId := m (i + 9)
  hdrChecksum := load16 m (i + 10)
  srcAddr := load32 m (i + 12)
  dstAddr := load32 m (i + 16)

def TcpHdr.load (m : Mem) (i : Nat) : TcpHdr where
  srcPort := load16 m i
  dstPort := load16 m (i + 2)
  sentSeq := load32 m (i + 4)
  recvAck := load32 m (i + 8)
  dataOff := m (i + 12)
  tcpFlags := m (i + 13)
  rxWin := load16 m (i + 14)
  cksum := load16 m (i + 16)
  tcpUrp := load16 m (i + 18)

def Ipv4Hdr.bytes (h : Ipv4Hdr) : List Byte :=
  [h.versionIhl, h.typeOfService] ++ store16 h.totalLength ++ store16 h.packetId ++
    store16 h.fragmentOffset ++ [h.timeToLive, h.nextProtoId] ++ store16 h.hdrChecksum ++
    store32 h.srcAddr ++ store32 h.dstAddr

def TcpHdr.bytes (h : TcpHdr) : List Byte :=
  store16 h.srcPort ++ store16 h.dstPort ++ store32 h.sentSeq ++ store32 h.recvAck ++
    [h.dataOff, h.tcpFlags] ++ store16 h.rxWin ++ store16 h.cksum ++ store16 h.tcpUrp

theorem Ipv4Hdr.length_bytes (h : Ipv4Hdr) : h.bytes.length = 20 := rfl

theorem TcpHdr.length_bytes (h : TcpHdr) : h.bytes.length = 20 := rfl

/-! ## Frames and packets -/

structure Frame where
  dataLen : BitVec 16
  pktLen : BitVec 32
  ether : EtherHdr
  ipv4 : Ipv4Hdr
  tcp : TcpHdr
  payload : List Byte

structure Packet where
  ether : EtherHdr
  ipv4 : Ipv4Hdr
  tcp : TcpHdr
  /-- memory from the end of the TCP header on -/
  data : Mem

/-- The memory of a received frame from `rte_pktmbuf_mtod` on; the frame itself
is its first `pktLen` bytes. -/
structure Mbuf where
  mem : Mem
  pktLen : BitVec 32

def sizeofEtherHdr : Nat := 14
def sizeofIpv4Hdr : Nat := 20
def sizeofTcpHdr : Nat := 20

/-- The pointers the receive loop takes into a frame. -/
def Mbuf.packet (b : Mbuf) : Packet :=
  let tcp := TcpHdr.load b.mem (sizeofEtherHdr + sizeofIpv4Hdr)
  { ether := EtherHdr.load b.mem 0
    ipv4 := Ipv4Hdr.load b.mem sizeofEtherHdr
    tcp
    data := fun i => b.mem (sizeofEtherHdr + sizeofIpv4Hdr + tcp.hdrLen.toNat + i) }

/-- An emitted frame as the receiver's loop reads it: `send_p` writes the payload
where a data offset of five words says it is. -/
def Frame.packet (f : Frame) : Packet where
  ether := f.ether
  ipv4 := f.ipv4
  tcp := f.tcp
  data i := f.payload.getD i 0

end TcpDpdk

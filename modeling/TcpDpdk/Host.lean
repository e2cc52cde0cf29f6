import TcpDpdk.Lib.OnesSum
import TcpDpdk.Slots

/-!
# A host to try things on

One host with the address 10.0.0.1, a peer 10.0.0.2 that talks from its port 40000
to port 8000, memory that comes zeroed and buffers that never run out. Where a
property fails it fails here.
-/

namespace TcpDpdk

/-! ## The checksums of `rte_ip.h` -/

def onesCksum (l : List Byte) : BitVec 16 := ~~~BitVec.ofNat 16 (OnesSum.sum l)

def l4Len (h : Ipv4Hdr) : BitVec 16 := rteBeToCpu16 h.totalLength - 20

def pseudoHeader (h : Ipv4Hdr) : List Byte :=
  store32 h.srcAddr ++ store32 h.dstAddr ++ [0, h.nextProtoId] ++ store16 (rteCpuToBe16 (l4Len h))

/-- The first one adds up the IP header, the second one the pseudo-header and as
much memory as the total length says; it never returns zero for a sum it made. -/
def rfcCksum : RteCksum where
  rteIpv4Cksum h := onesCksum h.bytes
  rteIpv4UdptcpCksum h m :=
    if rteBeToCpu16 h.totalLength < 20 then 0
    else
      let cksum := onesCksum (pseudoHeader h ++ m.bytes (l4Len h).toNat)
      if cksum = 0 then 0xffff else cksum

/-! ## The host and its peer -/

def hostNic : Nic where
  ip := rteCpuToBe32 0x0a000001
  mac := 0x01
  dstMac := 0x02

def peerNic : Nic where
  ip := rteCpuToBe32 0x0a000002
  mac := 0x02
  dstMac := 0x01

def host : Core := initializeTcp hostNic 0

theorem host_init (K : RteCksum) : (machine K).init host := ⟨hostNic, 0, rfl⟩

def zeroed : Connection where
  q := ⟨0, 0, 0, 0, 0⟩
  tcpState := .established
  sendSequenceSpace := ⟨0, 0, 0, false, 0, 0, 0⟩
  receiveSequenceSpace := ⟨0, 0, false, 0⟩
  rteIpv4Hdr := ⟨0, 0, 0, 0, 0, 0, 0, 0, 0, 0⟩
  rteTcpHdr := ⟨0, 0, 0, 0, 0, 0, 0, 0, 0⟩
  payload := fun _ => 0

def calm : Env where
  mbuf := true
  object := some zeroed
  pad := 0
  clock := 1

def peerPort : BitVec 16 := rteCpuToBe16 40000
def hostPort : BitVec 16 := rteCpuToBe16 8000

def peerQuad : Quad := ⟨peerNic.ip, peerPort, hostNic.ip, hostPort, 0⟩

def peerPacket (flags : Byte) (seq ackn : BitVec 32) (data : List Byte) : Packet where
  ether := ⟨hostNic.mac, peerNic.mac, rteCpuToBe16 0x0800⟩
  ipv4 := {
    versionIhl := ipVhlDef
    typeOfService := 0
    totalLength := rteCpuToBe16 (40 + BitVec.ofNat 16 data.length)
    packetId := 0
    fragmentOffset := 0
    timeToLive := ipDefttl
    nextProtoId := ipprotoTcp
    hdrChecksum := 0
    srcAddr := peerNic.ip
    dstAddr := hostNic.ip }
  tcp := {
    srcPort := peerPort
    dstPort := hostPort
    sentSeq := rteCpuToBe32 seq
    recvAck := rteCpuToBe32 ackn
    dataOff := 5 <<< 4
    tcpFlags := flags
    rxWin := rteCpuToBe16 1000
    cksum := 0
    tcpUrp := 0 }
  data := tokenMem data

def recv (flags : Byte) (seq ackn : BitVec 32) (data : List Byte) : Input :=
  ⟨.rx (peerPacket flags seq ackn data), calm⟩

def userConnect : Input := ⟨.connect peerNic.ip peerPort hostPort, calm⟩
def userClose : Input := ⟨.close peerQuad, calm⟩
def userSend (data : List Byte) : Input := ⟨.send peerQuad data, calm⟩

def peerOpens : List Input :=
  [recv rteTcpSynFlag 0 0 [], recv rteTcpAckFlag 1 1 []]

end TcpDpdk

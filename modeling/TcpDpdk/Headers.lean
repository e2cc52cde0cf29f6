import TcpDpdk.Frames

/-!
# Where the TCP header is

An IP header says how long it is. The receive loop takes it to be twenty bytes, in the
pointer to the TCP header, in the pointer to the payload and in the payload's size.
`located_iff` says for which valid frames this comes out right.
-/

namespace TcpDpdk

/-! ## A frame by its own lengths -/

def Mbuf.ihl (b : Mbuf) : Nat := (b.packet.ipv4.versionIhl &&& 0x0f).toNat

def Mbuf.totalLength (b : Mbuf) : Nat := (rteBeToCpu16 b.packet.ipv4.totalLength).toNat

def Mbuf.tcpAt (b : Mbuf) : Nat := 14 + 4 * b.ihl

def Mbuf.tcpHdr (b : Mbuf) : TcpHdr := TcpHdr.load b.mem b.tcpAt

def Mbuf.dataOffset (b : Mbuf) : Nat := (b.tcpHdr.dataOff >>> 4).toNat

/-- An unfragmented TCP packet for the host; behind its total length the frame may be
padded. -/
structure ValidFrame (nic : Nic) (b : Mbuf) : Prop where
  mac : b.packet.ether.dAddr = nic.mac
  etherType : b.packet.ether.etherType = rteBeToCpu16 rteEtherTypeIpv4
  ip : nic.ip = b.packet.ipv4.dstAddr
  protocol : b.packet.ipv4.nextProtoId = ipprotoTcp
  version : b.packet.ipv4.versionIhl >>> 4 = 4
  unfragmented : rteBeToCpu16 b.packet.ipv4.fragmentOffset &&& 0x3fff = 0
  ihl : 5 ≤ b.ihl
  offset : 5 ≤ b.dataOffset
  headers : 4 * b.ihl + 4 * b.dataOffset ≤ b.totalLength
  total : 14 + b.totalLength ≤ b.pktLen.toNat

/-- The handler gets the TCP header and the payload of the frame. -/
structure Located (b : Mbuf) (s : Seg) : Prop where
  header : s.tcpHdr = b.tcpHdr
  sport : s.q.sport = b.tcpHdr.srcPort
  dport : s.q.dport = b.tcpHdr.dstPort
  data : s.data = fun i => b.mem (14 + 4 * b.ihl + 4 * b.dataOffset + i)
  size : s.size.toInt = b.totalLength - 4 * b.ihl - 4 * b.dataOffset

/-! ## The receive loop -/

section
variable {nic : Nic} {pad : BitVec 32} {b : Mbuf}

theorem packet_tcp (h : b.ihl = 5) : b.packet.tcp = b.tcpHdr := by
  unfold Mbuf.tcpHdr Mbuf.tcpAt
  rw [h]
  rfl

/-- The size alone tells an IP header of another length: once the TCP header is the
right one, only the twenty bytes can make it wrong. -/
theorem ihl_of_located {s : Seg} (h : rxSegment nic pad b.packet = some s) (hloc : Located b s) :
    b.ihl = 5 := by
  obtain ⟨-, rfl⟩ := rxSegment_some h
  have hheader : b.packet.tcp = b.tcpHdr := hloc.header
  have hsize := hloc.size
  have hlen : b.packet.tcp.hdrLen.toNat = 4 * b.dataOffset := by rw [hdrLen_toNat, hheader]; rfl
  rw [rxSize_toInt, hlen] at hsize
  change (b.totalLength : Int) - 20 - _ = _ at hsize
  omega

/-- Of all valid frames, whatever options the two headers carry and however the frame is
padded, exactly those without IP options are taken apart where their headers are. -/
theorem located_iff (h : ValidFrame nic b) :
    (∃ s, rxSegment nic pad b.packet = some s ∧ Located b s) ↔ b.ihl = 5 := by
  constructor
  · intro ⟨s, hs, hloc⟩
    exact ihl_of_located hs hloc
  · intro hihl
    have htcp := packet_tcp hihl
    have hlen : b.tcpHdr.hdrLen.toNat = 4 * b.dataOffset := hdrLen_toNat _
    refine ⟨_, rxSegment_accepts h.mac h.etherType h.ip h.protocol, ?_⟩
    refine ⟨htcp, by rw [htcp], by rw [htcp], ?_, ?_⟩
    · funext i
      show b.mem (14 + 20 + b.packet.tcp.hdrLen.toNat + i) = _
      rw [htcp, hlen, hihl]
    · show (rxSize b.packet.ipv4 b.packet.tcp).toInt = _
      rw [rxSize_toInt, htcp, hlen, hihl]
      rfl

end

/-! ## On the host -/

/-- From the peer, with four bytes of TCP options, two of payload and two of padding. -/
def optioned (versionIhl : Byte) (totalLength : BitVec 16) (options : List Byte) : Mbuf :=
  frameOf ([1, 0, 0, 0, 0, 0, 2, 0, 0, 0, 0, 0, 0x08, 0x00] ++
    ({ (peerPacket rteTcpAckFlag 1 1 []).ipv4 with
      versionIhl, totalLength := rteCpuToBe16 totalLength, fragmentOffset := 0 } : Ipv4Hdr).bytes ++
    options ++ ({ (peerPacket rteTcpAckFlag 1 1 []).tcp with dataOff := 0x60 } : TcpHdr).bytes ++
    [1, 1, 1, 0] ++ [0x41, 0x42] ++ [0, 0])

theorem located_iff_plain :
    (∃ s, rxSegment hostNic 0 (optioned 0x45 46 []).packet = some s ∧
      Located (optioned 0x45 46 []) s) ↔ (optioned 0x45 46 []).ihl = 5 :=
  located_iff ⟨by decide +kernel, by decide +kernel, by decide +kernel, by decide +kernel,
    by decide +kernel, by decide +kernel, by decide +kernel, by decide +kernel, by decide +kernel,
    by decide +kernel⟩

/-- With one word of IP options the ports are read from the options. -/
theorem not_located : ¬∀ (nic : Nic) (pad : BitVec 32) (b : Mbuf), ValidFrame nic b →
    ∃ s, rxSegment nic pad b.packet = some s ∧ Located b s := by
  intro h
  obtain ⟨s, hs, hloc⟩ := h hostNic 0 (optioned 0x46 50 [1, 1, 1, 0])
    ⟨by decide +kernel, by decide +kernel, by decide +kernel, by decide +kernel, by decide +kernel,
      by decide +kernel, by decide +kernel, by decide +kernel, by decide +kernel, by decide +kernel⟩
  exact absurd (ihl_of_located hs hloc) (by decide +kernel)

end TcpDpdk

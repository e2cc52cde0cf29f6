import TcpDpdk.Connection

/-!
# Sending a segment

`tcpTxPackets` fills in the headers kept in the connection, hands the frame to
the driver, and moves `snd.nxt` over a SYN and a FIN, taking both flags down. The
checksum is computed over the connection's own payload memory; the frame carries
the bytes at the pointer the caller passed.
-/

namespace TcpDpdk

structure Out where
  frames : List Frame := []
  printed : List Byte := []

def sizeT (size : BitVec 32) : BitVec 64 := size.signExtend 64

def txFrame (t : Tcp) (c : Connection) (data : Mem) (dataSize : BitVec 64) : Frame :=
  let dataLen : BitVec 16 := (14#64 + 20#64 + 20#64 + dataSize).setWidth 16
  { dataLen
    pktLen := dataLen.setWidth 32
    ether := {
      dAddr := t.nic.dstMac
      sAddr := t.nic.mac
      etherType := rteCpuToBe16 0x0800 }
    ipv4 := c.rteIpv4Hdr
    tcp := c.rteTcpHdr
    payload := data.bytes dataSize.toNat }

/-- Without a buffer nothing is sent. A length with its top bit set, a negative
`int` widened, is more than `rte_memcpy` survives. How much a buffer holds is not known
here; `boundedMachine` stops at a copy that goes behind it. -/
def sendP (env : Env) (t : Tcp) (c : Connection) (data : Mem) (dataSize : BitVec 64) :
    Option (List Frame) :=
  if env.mbuf = false then
    some []
  else if dataSize.msb then
    none
  else
    some [txFrame t c data dataSize]

theorem sendP_some {env : Env} {t : Tcp} {c : Connection} {data : Mem} {dataSize : BitVec 64}
    {frames : List Frame} (h : sendP env t c data dataSize = some frames) :
    frames = [] ∧ env.mbuf = false ∨
      frames = [txFrame t c data dataSize] ∧ env.mbuf = true ∧ dataSize.msb = false := by
  unfold sendP at h
  split at h
  · exact Or.inl ⟨(Option.some.inj h).symm, by assumption⟩
  · split at h
    · cases h
    · exact Or.inr ⟨(Option.some.inj h).symm, by simp_all, by simp_all⟩

theorem sendP_nil {env : Env} {t : Tcp} {c : Connection} {data : Mem} {n : BitVec 64}
    {frames : List Frame} (h : sendP env t c data n = some frames) :
    frames = [] ↔ env.mbuf = false := by
  rcases sendP_some h with ⟨rfl, hm⟩ | ⟨rfl, hm, -⟩
  · exact iff_of_true rfl hm
  · refine iff_of_false (fun h => nomatch h) ?_
    rw [hm]
    decide

theorem sendP_exists {env : Env} {t : Tcp} {c : Connection} {data : Mem} {n : BitVec 64}
    {frames : List Frame} (h : sendP env t c data n = some frames) :
    (∃ f, f ∈ frames) ↔ env.mbuf = true := by
  rcases sendP_some h with ⟨rfl, hm⟩ | ⟨rfl, hm, -⟩
  · rw [hm]
    simp
  · exact iff_of_true ⟨_, List.mem_singleton_self _⟩ hm

def tcpMem (h : TcpHdr) (payload : Mem) : Mem := fun i =>
  if i < sizeofTcpHdr then h.bytes.getD i 0 else payload (i - sizeofTcpHdr)

def txHeaders (K : RteCksum) (c : Connection) (dataSize : BitVec 64) : Connection :=
  let size : BitVec 16 := (20#64 + 20#64 + dataSize).setWidth 16
  let tcpHdr := { c.rteTcpHdr with
    sentSeq := rteCpuToBe32 c.sendSequenceSpace.nxt
    recvAck := rteCpuToBe32 c.receiveSequenceSpace.nxt
    dataOff := 5 <<< 4
    cksum := 0 }
  let ipv4Hdr := { c.rteIpv4Hdr with
    fragmentOffset := rteCpuToBe16 0x4000
    packetId := rteCpuToBe16 (rteBeToCpu16 c.rteIpv4Hdr.packetId + 1)
    timeToLive := ipDefttl
    versionIhl := ipVhlDef
    nextProtoId := ipprotoTcp
    totalLength := rteCpuToBe16 size
    hdrChecksum := 0 }
  let ipv4Hdr := { ipv4Hdr with hdrChecksum := K.rteIpv4Cksum ipv4Hdr }
  let tcpHdr := { tcpHdr with cksum := K.rteIpv4UdptcpCksum ipv4Hdr (tcpMem tcpHdr c.payload) }
  { c with rteIpv4Hdr := ipv4Hdr, rteTcpHdr := tcpHdr }

def txFlag (flag : Byte) (c : Connection) : Connection :=
  if c.rteTcpHdr.has flag then
    { c with
      sendSequenceSpace.nxt := c.sendSequenceSpace.nxt + 1
      rteTcpHdr.tcpFlags := c.rteTcpHdr.tcpFlags &&& ~~~flag }
  else c

def tcpTxPackets (K : RteCksum) (env : Env) (t : Tcp) (c : Connection) (data : Mem)
    (dataSize : BitVec 64) : Option (Connection × List Frame) :=
  let c := txHeaders K c dataSize
  (sendP env t c data dataSize).map fun frames =>
    (txFlag rteTcpFinFlag (txFlag rteTcpSynFlag c), frames)

/-! ## What sending changes -/

/-- No SYN or FIN is left raised in the stored header. -/
def Connection.Quiet (c : Connection) : Prop :=
  c.rteTcpHdr.has rteTcpSynFlag = false ∧ c.rteTcpHdr.has rteTcpFinFlag = false

theorem quiet_of_flags {c : Connection} {f : Byte} (h : c.rteTcpHdr.tcpFlags = f)
    (hf : f &&& rteTcpSynFlag = 0 ∧ f &&& rteTcpFinFlag = 0) : c.Quiet := by
  subst h
  exact ⟨TcpHdr.has_eq_false.mpr hf.1, TcpHdr.has_eq_false.mpr hf.2⟩

def Connection.sent (K : RteCksum) (c : Connection) (dataSize : BitVec 64) : Connection :=
  txFlag rteTcpFinFlag (txFlag rteTcpSynFlag (txHeaders K c dataSize))

theorem tcpTxPackets_some {K : RteCksum} {env : Env} {t : Tcp} {c : Connection} {data : Mem}
    {dataSize : BitVec 64} {d : Connection} {frames : List Frame}
    (h : tcpTxPackets K env t c data dataSize = some (d, frames)) :
    d = c.sent K dataSize ∧ sendP env t (txHeaders K c dataSize) data dataSize = some frames := by
  unfold tcpTxPackets at h
  obtain ⟨frames, hs, he⟩ := Option.map_eq_some_iff.mp h
  cases he
  exact ⟨rfl, hs⟩

theorem tcpTxPackets_empty (K : RteCksum) (env : Env) (t : Tcp) (c : Connection) (data : Mem) :
    ∃ frames, tcpTxPackets K env t c data 0 = some (c.sent K 0, frames) := by
  have hs : ∃ frames, sendP env t (txHeaders K c 0) data 0 = some frames := by
    unfold sendP
    split
    · exact ⟨_, rfl⟩
    · exact ⟨_, if_neg (by decide)⟩
  obtain ⟨frames, hs⟩ := hs
  exact ⟨frames, by simp only [tcpTxPackets, hs, Option.map_some]; rfl⟩

section
variable (K : RteCksum) (c : Connection) (n : BitVec 64)

variable (flag : Byte)

@[simp] theorem txFlag_q : (txFlag flag c).q = c.q := by unfold txFlag; split <;> rfl

@[simp] theorem txFlag_tcpState : (txFlag flag c).tcpState = c.tcpState := by
  unfold txFlag; split <;> rfl

@[simp] theorem txFlag_payload : (txFlag flag c).payload = c.payload := by
  unfold txFlag; split <;> rfl

@[simp] theorem txFlag_una : (txFlag flag c).sendSequenceSpace.una = c.sendSequenceSpace.una := by
  unfold txFlag; split <;> rfl

@[simp] theorem txFlag_receiveSequenceSpace :
    (txFlag flag c).receiveSequenceSpace = c.receiveSequenceSpace := by
  unfold txFlag; split <;> rfl

theorem txFlag_nxt : (txFlag flag c).sendSequenceSpace.nxt =
    c.sendSequenceSpace.nxt + if c.rteTcpHdr.has flag then 1 else 0 := by
  unfold txFlag; split <;> simp

theorem txFlag_tcpFlags : (txFlag flag c).rteTcpHdr.tcpFlags =
    if c.rteTcpHdr.has flag then c.rteTcpHdr.tcpFlags &&& ~~~flag else c.rteTcpHdr.tcpFlags := by
  unfold txFlag; split <;> rfl

@[simp] theorem sent_q : (c.sent K n).q = c.q := by simp [Connection.sent, txHeaders]

@[simp] theorem sent_tcpState : (c.sent K n).tcpState = c.tcpState := by
  simp [Connection.sent, txHeaders]

@[simp] theorem sent_payload : (c.sent K n).payload = c.payload := by
  simp [Connection.sent, txHeaders]

@[simp] theorem sent_una : (c.sent K n).sendSequenceSpace.una = c.sendSequenceSpace.una := by
  simp [Connection.sent, txHeaders]

@[simp] theorem sent_receiveSequenceSpace :
    (c.sent K n).receiveSequenceSpace = c.receiveSequenceSpace := by
  simp [Connection.sent, txHeaders]

end

theorem txFlag_syn_has_fin (c : Connection) :
    (txFlag rteTcpSynFlag c).rteTcpHdr.has rteTcpFinFlag = c.rteTcpHdr.has rteTcpFinFlag := by
  unfold TcpHdr.has
  rw [txFlag_tcpFlags]
  split
  · generalize c.rteTcpHdr.tcpFlags = f
    rw [BitVec.and_assoc]; rfl
  · rfl

theorem sent_nxt (K : RteCksum) (c : Connection) (n : BitVec 64) :
    (c.sent K n).sendSequenceSpace.nxt = c.sendSequenceSpace.nxt +
      (if c.rteTcpHdr.has rteTcpSynFlag then 1 else 0) +
      (if c.rteTcpHdr.has rteTcpFinFlag then 1 else 0) := by
  unfold Connection.sent
  rw [txFlag_nxt, txFlag_nxt, txFlag_syn_has_fin]
  rfl

theorem sent_nxt_plain {K : RteCksum} {c : Connection} {n : BitVec 64} (h : c.Quiet) :
    (c.sent K n).sendSequenceSpace.nxt = c.sendSequenceSpace.nxt := by
  rw [sent_nxt, h.1, h.2]; simp

theorem sent_nxt_flag {K : RteCksum} {c : Connection} {n : BitVec 64}
    (h : c.rteTcpHdr.has rteTcpSynFlag ≠ c.rteTcpHdr.has rteTcpFinFlag) :
    (c.sent K n).sendSequenceSpace.nxt = c.sendSequenceSpace.nxt + 1 := by
  rw [sent_nxt]
  cases hs : c.rteTcpHdr.has rteTcpSynFlag <;> cases hf : c.rteTcpHdr.has rteTcpFinFlag <;> simp_all

theorem sent_nxt_flags {K : RteCksum} {c : Connection} {n : BitVec 64} {f : Byte}
    (h : c.rteTcpHdr.tcpFlags = f)
    (hf : (f &&& rteTcpSynFlag = 0) ≠ (f &&& rteTcpFinFlag = 0)) :
    (c.sent K n).sendSequenceSpace.nxt = c.sendSequenceSpace.nxt + 1 := by
  subst h
  refine sent_nxt_flag fun he => hf (propext ?_)
  rw [← TcpHdr.has_eq_false, ← TcpHdr.has_eq_false, he]

theorem txFlag_down (c : Connection) (flag : Byte) : (txFlag flag c).rteTcpHdr.has flag = false := by
  unfold TcpHdr.has
  rw [txFlag_tcpFlags]
  split
  · rw [BitVec.and_assoc]; simp
  · rename_i h; simpa [TcpHdr.has] using h

theorem sent_quiet (K : RteCksum) (c : Connection) (n : BitVec 64) : (c.sent K n).Quiet := by
  refine ⟨?_, txFlag_down _ _⟩
  have h := txFlag_down (txHeaders K c n) rteTcpSynFlag
  revert h
  unfold Connection.sent
  generalize txFlag rteTcpSynFlag (txHeaders K c n) = d
  unfold TcpHdr.has
  rw [txFlag_tcpFlags]
  split
  · intro h
    rw [BitVec.and_assoc]
    exact h
  · exact id

end TcpDpdk

import TcpDpdk.RecvSpace

/-!
# Received frames

Three lengths come with a frame: the one the driver reports, the total length in
the IP header and the data offset in the TCP header. The receive loop takes the
payload from the last two and compares none of them. `sliceInside_iff` says which
frames the slice it hands on lies inside of, and `negative_crashes` what becomes of
the ones with less than a header's worth of total length.
-/

namespace TcpDpdk

/-! ## The size of the payload -/

theorem hdrLen_toNat (h : TcpHdr) : h.hdrLen.toNat = 4 * (h.dataOff >>> 4).toNat := by
  have hx := h.dataOff.isLt
  unfold TcpHdr.hdrLen
  rw [BitVec.toNat_shiftLeft, BitVec.toNat_ushiftRight, Nat.shiftRight_eq_div_pow,
    Nat.shiftLeft_eq]
  omega

theorem rxSize_toInt (ip : Ipv4Hdr) (tcp : TcpHdr) :
    (rxSize ip tcp).toInt = (rteBeToCpu16 ip.totalLength).toNat - 20 - tcp.hdrLen.toNat := by
  have hl := (rteBeToCpu16 ip.totalLength).isLt
  have hh : tcp.hdrLen.toNat ≤ 60 := by
    have := tcp.dataOff.isLt
    rw [hdrLen_toNat, BitVec.toNat_ushiftRight, Nat.shiftRight_eq_div_pow]
    omega
  unfold rxSize
  rw [BitVec.toInt_eq_toNat_cond]
  simp only [BitVec.toNat_setWidth, BitVec.toNat_sub, BitVec.toNat_ofNat]
  omega

theorem sizeT_toInt (size : BitVec 32) : (sizeT size).toInt = size.toInt :=
  BitVec.toInt_signExtend_of_le (by decide)

theorem sizeT_msb (size : BitVec 32) : (sizeT size).msb = decide (size.toInt < 0) := by
  rw [BitVec.msb_eq_toInt, sizeT_toInt]

theorem sizeT_toNat {size : BitVec 32} (h : 0 ≤ size.toInt) :
    ((sizeT size).toNat : Int) = size.toInt := by
  have hm : (sizeT size).msb = false := by
    rw [sizeT_msb, decide_eq_false_iff_not, Int.not_lt]
    exact h
  rw [← BitVec.toInt_eq_toNat_of_msb hm, sizeT_toInt]

/-! ## The slice -/

/-- The headers and the payload handed to a handler lie inside the frame, and so
does what the handler passes on to be sent. -/
structure SliceInside (b : Mbuf) (s : Seg) : Prop where
  headers : 54 ≤ b.pktLen.toNat
  offset : 5 ≤ (s.tcpHdr.dataOff >>> 4).toNat
  size : 0 ≤ s.size.toInt
  slice : 34 + s.tcpHdr.hdrLen.toNat + s.size.toInt ≤ b.pktLen.toNat
  sent : (sizeT s.size).toNat ≤ b.pktLen.toNat

structure WellFormed (b : Mbuf) : Prop where
  headers : 54 ≤ b.pktLen.toNat
  offset : 5 ≤ (b.packet.tcp.dataOff >>> 4).toNat
  header : 20 + 4 * (b.packet.tcp.dataOff >>> 4).toNat ≤ (rteBeToCpu16 b.packet.ipv4.totalLength).toNat
  total : 14 + (rteBeToCpu16 b.packet.ipv4.totalLength).toNat ≤ b.pktLen.toNat

/-- Of the frames that pass the tests of the receive loop, whatever their bytes and
length, exactly the well-formed ones are handed on safely. -/
theorem sliceInside_iff {nic : Nic} {pad : BitVec 32} {b : Mbuf} {s : Seg}
    (h : rxSegment nic pad b.packet = some s) : SliceInside b s ↔ WellFormed b := by
  obtain ⟨-, rfl⟩ := rxSegment_some h
  have hd := hdrLen_toNat b.packet.tcp
  have hz := rxSize_toInt b.packet.ipv4 b.packet.tcp
  constructor
  · intro hs
    have h1 := hs.size
    have h2 := hs.slice
    simp only [hz, hd] at h1 h2
    exact ⟨hs.headers, hs.offset, by omega, by omega⟩
  · intro hw
    have h1 := hw.header
    have h2 := hw.total
    have hpos : 0 ≤ (rxSize b.packet.ipv4 b.packet.tcp).toInt := by rw [hz, hd]; omega
    have hsent := sizeT_toNat hpos
    rw [hz, hd] at hsent
    exact ⟨hw.headers, hw.offset, hpos, by simp only [hz, hd]; omega, by simp only; omega⟩

/-! ## A negative size -/

theorem negative_crashes {K : RteCksum} {env : Env} {k : Core} {p : Packet} {s : Seg}
    (hs : rxSegment k.tcp.nic env.pad p = some s) (hl : k.tcp.rteHash.lookup s.q = none)
    (hf : s.tcpHdr.tcpFlags = rteTcpSynFlag) (hm : env.mbuf = true) (hneg : s.size.toInt < 0) :
    tcpRxPacket K env k p = none := by
  have hlisten : handleTcpListen K env k.tcp s = none := by
    unfold handleTcpListen
    rw [if_neg (not_not.mpr hf)]
    cases env.object with
    | none => rfl
    | some g =>
      have hsend : sendP env k.tcp (txHeaders K (listenConnection g s) (sizeT s.size)) s.data
          (sizeT s.size) = none := by
        unfold sendP
        rw [hm, if_neg (by decide), if_pos (by rw [sizeT_msb]; exact decide_eq_true hneg)]
      simp only [tcpTxPackets, hsend, Option.map_none]
  unfold tcpRxPacket rxDispatch
  rw [hs]
  simp only [hl, hlisten, Option.map_none]

/-! ## On the host -/

def frameOf (l : List Byte) : Mbuf := ⟨tokenMem l, BitVec.ofNat 32 l.length⟩

def rawSyn (totalLength : BitVec 16) (dataOff : Byte) : Mbuf :=
  frameOf ([1, 0, 0, 0, 0, 0, 2, 0, 0, 0, 0, 0, 0x08, 0x00] ++
    ({ (peerPacket rteTcpSynFlag 0 0 []).ipv4 with totalLength := rteCpuToBe16 totalLength } :
      Ipv4Hdr).bytes ++
    ({ (peerPacket rteTcpSynFlag 0 0 []).tcp with dataOff } : TcpHdr).bytes)

theorem sliceInside_iff_syn : ∃ s, rxSegment hostNic 0 (rawSyn 40 0x50).packet = some s ∧
    (SliceInside (rawSyn 40 0x50) s ↔ WellFormed (rawSyn 40 0x50)) := by
  have htest : (rxSegment hostNic 0 (rawSyn 40 0x50).packet).isSome = true := by decide +kernel
  obtain ⟨s, hs⟩ := Option.isSome_iff_exists.mp htest
  exact ⟨s, hs, sliceInside_iff hs⟩

/-- A SYN with a total length of 20, 54 bytes long, is handed on with a size of -20. -/
theorem not_sliceInside : ¬∀ (nic : Nic) (pad : BitVec 32) (b : Mbuf) (s : Seg),
    rxSegment nic pad b.packet = some s → SliceInside b s := by
  intro h
  have htest : (rxSegment hostNic 0 (rawSyn 20 0x50).packet).any (fun s => s.size.toInt = -20) = true := by
    decide +kernel
  obtain ⟨s, hs, hsize⟩ := (Option.any_eq_true ..).mp htest
  have hpos := (h hostNic 0 (rawSyn 20 0x50) s hs).size
  rw [of_decide_eq_true hsize] at hpos
  cases hpos

end TcpDpdk

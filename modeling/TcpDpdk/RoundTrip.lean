import TcpDpdk.Frames

/-!
# Decoding undoes encoding

`sendP` lays the three headers and the payload out in a buffer, the receive loop of
another host takes them apart again at fixed offsets. `Holds` says what a buffer
contains; the headers are read back from it field by field, the payload where the two
lengths in the headers say it is.
-/

namespace TcpDpdk

/-! ## Memory -/

def Mem.Holds (m : Mem) (i : Nat) : List Byte → Prop
  | [] => True
  | b :: l => m i = b ∧ m.Holds (i + 1) l

theorem holds_append {m : Mem} {i : Nat} {l l' : List Byte} :
    m.Holds i (l ++ l') ↔ m.Holds i l ∧ m.Holds (i + l.length) l' := by
  induction l generalizing i with
  | nil => simp [Mem.Holds]
  | cons b l ih =>
    rw [List.cons_append, Mem.Holds, Mem.Holds, ih, and_assoc, List.length_cons, Nat.add_assoc,
      Nat.add_comm 1]

theorem bytes_of_holds {m : Mem} {i : Nat} {l : List Byte} (h : m.Holds i l) :
    Mem.bytes (fun j => m (i + j)) l.length = l := by
  induction l generalizing i with
  | nil => rfl
  | cons b l ih =>
    have htail := ih h.2
    unfold Mem.bytes at htail ⊢
    rw [List.length_cons, List.range_succ_eq_map, List.map_cons, List.map_map]
    congr 1
    · exact h.1
    · rw [← htail]
      simp only [List.length_map, List.length_range]
      apply List.map_congr_left
      intro j _
      show m (i + (j + 1)) = m (i + 1 + j)
      rw [Nat.add_assoc, Nat.add_comm 1]

def store48 (x : BitVec 48) : List Byte :=
  store32 (x.setWidth 32) ++ store16 ((x >>> 32).setWidth 16)

theorem load16_holds {m : Mem} {i : Nat} {x : BitVec 16} (h : m.Holds i (store16 x)) :
    load16 m i = x := by
  obtain ⟨h0, h1, -⟩ := h
  unfold load16
  rw [h0, h1]
  ext j hj
  interval_cases j <;> simp

theorem load32_holds {m : Mem} {i : Nat} {x : BitVec 32} (h : m.Holds i (store32 x)) :
    load32 m i = x := by
  obtain ⟨h0, h1⟩ := holds_append.mp h
  rw [length_store16] at h1
  unfold load32
  rw [load16_holds h0, load16_holds h1]
  ext j hj
  interval_cases j <;> simp

theorem load48_holds {m : Mem} {i : Nat} {x : BitVec 48} (h : m.Holds i (store48 x)) :
    load48 m i = x := by
  obtain ⟨h0, h1⟩ := holds_append.mp h
  rw [length_store32] at h1
  unfold load48
  rw [load32_holds h0, load16_holds h1]
  ext j hj
  interval_cases j <;> simp

@[simp] theorem length_store48 (x : BitVec 48) : (store48 x).length = 6 := rfl

/-! ## Headers -/

def EtherHdr.bytes (h : EtherHdr) : List Byte := store48 h.dAddr ++ store48 h.sAddr ++ store16 h.etherType

theorem EtherHdr.length_bytes (h : EtherHdr) : h.bytes.length = 14 := rfl

section
variable {m : Mem} {i : Nat}

theorem EtherHdr.load_holds {h : EtherHdr} (hm : m.Holds i h.bytes) : EtherHdr.load m i = h := by
  simp only [EtherHdr.bytes, holds_append, List.length_append, length_store48, Nat.reduceAdd] at hm
  obtain ⟨⟨hd, hs⟩, ht⟩ := hm
  unfold EtherHdr.load
  rw [load48_holds hd, load48_holds hs, load16_holds ht]

theorem Ipv4Hdr.load_holds {h : Ipv4Hdr} (hm : m.Holds i h.bytes) : Ipv4Hdr.load m i = h := by
  simp only [Ipv4Hdr.bytes, holds_append, Mem.Holds, and_true, List.length_append, List.length_cons,
    List.length_nil, length_store16, length_store32, Nat.add_assoc, Nat.reduceAdd] at hm
  obtain ⟨⟨⟨⟨⟨⟨⟨⟨hv, ht⟩, hl⟩, hp⟩, hf⟩, hl', hn⟩, hc⟩, hs⟩, hd⟩ := hm
  unfold Ipv4Hdr.load
  rw [hv, ht, load16_holds hl, load16_holds hp, load16_holds hf, hl', hn, load16_holds hc,
    load32_holds hs, load32_holds hd]

theorem TcpHdr.load_holds {h : TcpHdr} (hm : m.Holds i h.bytes) : TcpHdr.load m i = h := by
  simp only [TcpHdr.bytes, holds_append, Mem.Holds, and_true, List.length_append, List.length_cons,
    List.length_nil, length_store16, length_store32, Nat.add_assoc, Nat.reduceAdd] at hm
  obtain ⟨⟨⟨⟨⟨⟨⟨hs, hd⟩, hq⟩, ha⟩, ho, hf⟩, hw⟩, hc⟩, hu⟩ := hm
  unfold TcpHdr.load
  rw [load16_holds hs, load16_holds hd, load32_holds hq, load32_holds ha, ho, hf, load16_holds hw,
    load16_holds hc, load16_holds hu]

end

/-! ## Frames -/

def Frame.bytes (f : Frame) : List Byte := f.ether.bytes ++ f.ipv4.bytes ++ f.tcp.bytes ++ f.payload

theorem Frame.length_bytes (f : Frame) : f.bytes.length = 54 + f.payload.length := by
  unfold Frame.bytes
  rw [List.length_append, List.length_append, List.length_append, EtherHdr.length_bytes,
    Ipv4Hdr.length_bytes, TcpHdr.length_bytes]

/-- In a buffer that starts with the bytes of a frame, the receive loop finds what
`Frame.packet` says, if the TCP header is the five words `sendP` always makes it. -/
theorem packet_holds {b : Mbuf} {f : Frame} (h : b.mem.Holds 0 f.bytes)
    (hoff : f.tcp.hdrLen = 20) :
    b.packet.ether = f.packet.ether ∧ b.packet.ipv4 = f.packet.ipv4 ∧ b.packet.tcp = f.packet.tcp ∧
      b.packet.data.bytes f.payload.length = f.payload := by
  simp only [Frame.bytes, holds_append, List.length_append, EtherHdr.length_bytes,
    Ipv4Hdr.length_bytes, TcpHdr.length_bytes, Nat.reduceAdd] at h
  obtain ⟨⟨⟨he, hi⟩, ht⟩, hp⟩ := h
  have htcp : b.packet.tcp = f.tcp := TcpHdr.load_holds ht
  refine ⟨EtherHdr.load_holds he, Ipv4Hdr.load_holds hi, htcp, ?_⟩
  have hdata : b.packet.data = fun j => b.mem (54 + j) := by
    funext j
    show b.mem (14 + 20 + b.packet.tcp.hdrLen.toNat + j) = _
    rw [htcp, hoff]
    rfl
  rw [hdata]
  exact bytes_of_holds hp

/-! ## The round trip -/

/-- `s` says what `c` had to say with the payload `p`. -/
structure Decodes (c : Connection) (p : List Byte) (s : Seg) : Prop where
  sip : s.q.sip = c.rteIpv4Hdr.srcAddr
  sport : s.q.sport = c.rteTcpHdr.srcPort
  dip : s.q.dip = c.rteIpv4Hdr.dstAddr
  dport : s.q.dport = c.rteTcpHdr.dstPort
  seq : s.seq = c.sendSequenceSpace.nxt
  ackn : s.ackn = c.receiveSequenceSpace.nxt
  flags : s.tcpHdr.tcpFlags = c.rteTcpHdr.tcpFlags
  size : s.size.toInt = p.length
  data : s.data.bytes p.length = p

section
variable {K : RteCksum} {t : Tcp} {c : Connection} {p : List Byte} {data : Mem} {n : BitVec 64}

variable (K t c data) in
theorem txFrame_lengths (hn : n.toNat = p.length) (hp : p.length ≤ 65481) :
    (txFrame t c data n).dataLen.toNat = 54 + p.length ∧
      (txFrame t c data n).pktLen.toNat = 54 + p.length ∧
      (rteBeToCpu16 (txHeaders K c n).rteIpv4Hdr.totalLength).toNat = 40 + p.length := by
  have htotal : rteBeToCpu16 (txHeaders K c n).rteIpv4Hdr.totalLength =
      (20#64 + 20#64 + n).setWidth 16 := rteBeToCpu16_rteCpuToBe16 _
  rw [htotal]
  simp only [txFrame, BitVec.toNat_setWidth, BitVec.toNat_add, BitVec.toNat_ofNat, hn]
  omega

theorem receive_txFrame (hdata : data.bytes p.length = p) (hn : n.toNat = p.length)
    (hp : p.length ≤ 65481) {b : Mbuf} {nic : Nic} {pad : BitVec 32}
    (hb : b.mem.Holds 0 (txFrame t (txHeaders K c n) data n).bytes)
    (hmac : nic.mac = (txFrame t (txHeaders K c n) data n).ether.dAddr)
    (hip : nic.ip = (txFrame t (txHeaders K c n) data n).ipv4.dstAddr) :
    ∃ s, rxSegment nic pad b.packet = some s ∧ Decodes c p s := by
  have hpayload : (txFrame t (txHeaders K c n) data n).payload = p := by
    show data.bytes n.toNat = p
    rw [hn, hdata]
  have hoff : (txHeaders K c n).rteTcpHdr.hdrLen = 20 := by
    show (5#8 <<< 4) >>> 4 <<< 2 = 20#8
    decide
  obtain ⟨hether, hipv4, htcp, hbytes⟩ := packet_holds hb hoff
  rw [hpayload] at hbytes
  refine ⟨_, rxSegment_accepts (by rw [hether]; exact hmac.symm) (by rw [hether]; rfl)
    (by rw [hipv4]; exact hip) (by rw [hipv4]; rfl), ?_⟩
  rw [hipv4, htcp]
  refine ⟨rfl, rfl, rfl, rfl, rteBeToCpu32_rteCpuToBe32 _, rteBeToCpu32_rteCpuToBe32 _, rfl, ?_, hbytes⟩
  have htotal := (txFrame_lengths K t c data hn hp).2.2
  rw [rxSize_toInt]
  show ((rteBeToCpu16 (txHeaders K c n).rteIpv4Hdr.totalLength).toNat : Int) - 20 -
    ((txHeaders K c n).rteTcpHdr.hdrLen.toNat : Int) = p.length
  have h20 : (20 : Byte).toNat = 20 := rfl
  rw [htotal, hoff, h20]
  omega

end

/-- Whatever a connection sends, up to the longest payload a frame can count, is one
frame of the length it says, and a host of its destination that finds it in a buffer
reads from it the ends, the numbers, the flags and the payload it was made of. -/
theorem decode_encode (K : RteCksum) {env : Env} (hm : env.mbuf = true) (t : Tcp) (c : Connection)
    {p : List Byte} {data : Mem} (hdata : data.bytes p.length = p) (hp : p.length ≤ 65481) :
    ∃ d f, tcpTxPackets K env t c data (BitVec.ofNat 64 p.length) = some (d, [f]) ∧
      f.dataLen.toNat = f.bytes.length ∧ f.pktLen.toNat = f.bytes.length ∧
      ∀ (b : Mbuf) (nic : Nic) (pad : BitVec 32), b.mem.Holds 0 f.bytes →
        nic.mac = f.ether.dAddr → nic.ip = f.ipv4.dstAddr →
        ∃ s, rxSegment nic pad b.packet = some s ∧ Decodes c p s := by
  have hn : (BitVec.ofNat 64 p.length).toNat = p.length := by
    rw [BitVec.toNat_ofNat]
    omega
  generalize BitVec.ofNat 64 p.length = n at hn
  have hpos : n.msb = false := by
    rw [BitVec.msb_eq_false_iff_two_mul_lt, hn]
    omega
  have hsend : sendP env t (txHeaders K c n) data n = some [txFrame t (txHeaders K c n) data n] := by
    unfold sendP
    rw [if_neg (by rw [hm]; decide), if_neg (by rw [hpos]; decide)]
  have hsent : tcpTxPackets K env t c data n =
      some (c.sent K n, [txFrame t (txHeaders K c n) data n]) := by
    simp only [tcpTxPackets, hsend, Option.map_some]
    rfl
  obtain ⟨hdl, hpl, -⟩ := txFrame_lengths K t (txHeaders K c n) data hn hp
  have hlen : (txFrame t (txHeaders K c n) data n).bytes.length = 54 + p.length := by
    rw [Frame.length_bytes]
    show 54 + (data.bytes n.toNat).length = _
    rw [Mem.length_bytes, hn]
  refine ⟨_, _, hsent, hdl.trans hlen.symm, hpl.trans hlen.symm, fun b nic pad hb hmac hip => ?_⟩
  exact receive_txFrame hdata hn hp hb hmac hip

theorem holds_tokenMem (l : List Byte) : (tokenMem l).Holds 0 l := by
  have shifted : ∀ (l l' : List Byte), Mem.Holds (tokenMem (l' ++ l)) l'.length l := by
    intro l
    induction l with
    | nil => intro l'; trivial
    | cons b l ih =>
      intro l'
      refine ⟨by simp [tokenMem], ?_⟩
      have h := ih (l' ++ [b])
      rw [List.append_assoc, List.length_append] at h
      exact h
  exact shifted l []

def hostSender : Connection :=
  { expecting1 .established with
    rteIpv4Hdr.srcAddr := hostNic.ip
    rteIpv4Hdr.dstAddr := peerNic.ip }

/-- Two bytes of the host, in a buffer of its peer. -/
theorem decode_encode_peer : ∃ (d : Connection) (f : Frame) (s : Seg),
    tcpTxPackets rfcCksum calm host.tcp hostSender (tokenMem [0x41, 0x42]) 2 = some (d, [f]) ∧
      rxSegment peerNic 0 (frameOf f.bytes).packet = some s ∧ Decodes hostSender [0x41, 0x42] s := by
  obtain ⟨d, f, hsent, -, -, hdec⟩ := decode_encode rfcCksum (show calm.mbuf = true from rfl)
    host.tcp hostSender (p := [0x41, 0x42])
    (show (tokenMem [0x41, 0x42]).bytes 2 = [0x41, 0x42] from rfl) (by decide)
  have hf : f = txFrame host.tcp (txHeaders rfcCksum hostSender 2) (tokenMem [0x41, 0x42]) 2 := by
    rcases sendP_some (tcpTxPackets_some hsent).2 with ⟨hno, -⟩ | ⟨hf, -, -⟩
    · cases hno
    · exact (List.cons.inj hf).1
  obtain ⟨s, hs, hd⟩ := hdec (frameOf f.bytes) peerNic 0 (holds_tokenMem _) (by rw [hf]; rfl)
    (by rw [hf]; rfl)
  exact ⟨d, f, s, hsent, hs, hd⟩

end TcpDpdk

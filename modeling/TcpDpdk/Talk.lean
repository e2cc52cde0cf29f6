import TcpDpdk.Creation
import TcpDpdk.Exchange
import TcpDpdk.FinWait
import TcpDpdk.Keys
import TcpDpdk.Lib.Duplex
import TcpDpdk.Payload
import TcpDpdk.Survival

/-!
# The ends of a flow

Two instances of the stack on one wire, and the flow one of them opens to the other.
What an end of the flow sends is a segment for the other end, `txFrame_brings`; what
each state makes of the segment it waits for is one lemma a state.
-/

namespace TcpDpdk

open Duplex (Side)

def cable (K : RteCksum) : Machine (Duplex.Net Core Packet) (Duplex.Input Input Env) Out :=
  Duplex.wire (link K)

/-- The ports of a flow that the left host opens, and what is in the gaps of its key on
each host. -/
structure Flow where
  dport : BitVec 16
  sport : BitVec 16
  pad : Side → BitVec 32

def Flow.key (φ : Flow) (nic : Side → Nic) : Side → Quad
  | .left => ⟨(nic .right).ip, φ.dport, (nic .left).ip, φ.sport, φ.pad .left⟩
  | .right => ⟨(nic .left).ip, φ.sport, (nic .right).ip, φ.dport, φ.pad .right⟩

def Joined (nic : Side → Nic) : Prop := ∀ i : Side, (nic i).dstMac = (nic i.other).mac

/-! ## One segment -/

/-- `p`, received by the host of `nic`, is a segment `s` of the connection `q`. -/
structure Brings (nic : Nic) (q : Quad) (p : Packet) (flags : Byte) (seq ackn : BitVec 32)
    (data : List Byte) (s : Seg) : Prop where
  passes : rxSegment nic q.pad p = some s
  key : s.q = q
  flags : s.tcpHdr.tcpFlags = flags
  seq : s.seq = seq
  ackn : s.ackn = ackn
  size : s.size = BitVec.ofNat 32 data.length
  data : s.data.bytes data.length = data

section
variable {K : RteCksum} {env : Env} {t : Tcp} {φ : Flow} {nic : Side → Nic} {i : Side}

theorem route_arrives (φ : Flow) (nic : Side → Nic) (i : Side) :
    (⟨(φ.key nic i).route.srcAddr, (φ.key nic i).route.srcPort, (φ.key nic i).route.dstAddr,
      (φ.key nic i).route.dstPort, φ.pad i.other⟩ : Quad) = φ.key nic i.other := by
  cases i <;> rfl

theorem route_dst (φ : Flow) (nic : Side → Nic) (i : Side) :
    (φ.key nic i).route.dstAddr = (nic i.other).ip := by
  cases i <;> rfl

theorem key_pad (φ : Flow) (nic : Side → Nic) (i : Side) : (φ.key nic i).pad = φ.pad i := by
  cases i <;> rfl

theorem ofNat_toNat {l : List Byte} (hl : l.length ≤ 65495) :
    (BitVec.ofNat 64 l.length).toNat = l.length := by
  rw [BitVec.toNat_ofNat]
  omega

theorem rxSize_sent (c : Connection) {l : List Byte} (hl : l.length ≤ 65495) :
    rxSize (txHeaders K c (BitVec.ofNat 64 l.length)).rteIpv4Hdr
      (txHeaders K c (BitVec.ofNat 64 l.length)).rteTcpHdr = BitVec.ofNat 32 l.length := by
  have htotal := txHeaders_totalLength (K := K) c (n := BitVec.ofNat 64 l.length)
    (by rw [ofNat_toNat hl]; exact hl)
  have hoff : (txHeaders K c (BitVec.ofNat 64 l.length)).rteTcpHdr.hdrLen.toNat = 20 := by
    show ((5#8 <<< 4) >>> 4 <<< 2).toNat = 20
    decide
  apply BitVec.eq_of_toInt_eq
  rw [rxSize_toInt, htotal, hoff, ofNat_toNat hl, BitVec.toInt_eq_toNat_cond, BitVec.toNat_ofNat]
  omega

/-- What a connection of the flow sends is a segment of the flow on the other side. -/
theorem txFrame_brings {c : Connection} (hq : c.q = φ.key nic i) (hr : c.Routed)
    (ht : t.nic = nic i) (hj : Joined nic) {data : Mem} {l : List Byte} (hl : l.length ≤ 65495)
    (hdata : data.bytes l.length = l) :
    ∃ s, Brings (nic i.other) (φ.key nic i.other)
        (txFrame t (txHeaders K c (BitVec.ofNat 64 l.length)) data (BitVec.ofNat 64 l.length)).packet
        c.rteTcpHdr.tcpFlags c.sendSequenceSpace.nxt c.receiveSequenceSpace.nxt l s ∧
      s.tcpHdr.rxWin = c.rteTcpHdr.rxWin := by
  have hroute : c.route = (φ.key nic i).route := by rw [← hq]; exact hr
  have hsrc := congrArg Route.srcAddr hroute
  have hdst := congrArg Route.dstAddr hroute
  have hsp := congrArg Route.srcPort hroute
  have hdp := congrArg Route.dstPort hroute
  refine ⟨_, ⟨rxSegment_accepts ?_ rfl ?_ rfl, ?_, rfl, ?_, ?_, rxSize_sent c hl, ?_⟩, rfl⟩
  · show t.nic.dstMac = _
    rw [ht]
    exact hj i
  · show (nic i.other).ip = c.rteIpv4Hdr.dstAddr
    rw [← route_dst φ nic i]
    exact hdst.symm
  · show (⟨c.rteIpv4Hdr.srcAddr, c.rteTcpHdr.srcPort, c.rteIpv4Hdr.dstAddr, c.rteTcpHdr.dstPort,
      (φ.key nic i.other).pad⟩ : Quad) = _
    rw [key_pad, ← route_arrives φ nic i]
    exact congr (congr (congr (congr (congrArg Quad.mk hsrc) hsp) hdst) hdp) rfl
  · exact rteBeToCpu32_rteCpuToBe32 _
  · exact rteBeToCpu32_rteCpuToBe32 _
  · show Mem.bytes (fun j => (data.bytes (BitVec.ofNat 64 l.length).toNat).getD j 0) l.length = l
    rw [ofNat_toNat hl, hdata]
    exact tokenMem_eq.mpr rfl

/-! ## One end -/

/-- The frames are one segment for the other side. -/
def Posts (φ : Flow) (nic : Side → Nic) (i : Side) (frames : List Frame) (flags : Byte)
    (seq ackn : BitVec 32) (data : List Byte) : Prop :=
  ∃ f s, frames = [f] ∧ Brings (nic i.other) (φ.key nic i.other) f.packet flags seq ackn data s

structure Connection.Stands (c : Connection) (st : TcpState) (una nxt rcv : BitVec 32) : Prop where
  state : c.tcpState = st
  una : c.sendSequenceSpace.una = una
  nxt : c.sendSequenceSpace.nxt = nxt
  rcv : c.receiveSequenceSpace.nxt = rcv
  wnd : c.receiveSequenceSpace.wnd ≠ 0

/-- The host on side `i` has the connection `c` for the flow, and a buffer to send from. -/
structure Holds (φ : Flow) (nic : Side → Nic) (i : Side) (env : Env) (t : Tcp) (c : Connection) :
    Prop where
  joined : Joined nic
  buffer : env.mbuf = true
  here : t.nic = nic i
  key : c.q = φ.key nic i
  routed : c.Routed
  quiet : c.Quiet

theorem sendP_posts {d : Connection} {frames : List Frame} {data : Mem} {n : BitVec 64}
    (h : sendP env t (txHeaders K d n) data n = some frames) (hm : env.mbuf = true)
    (hj : Joined nic) (ht : t.nic = nic i) (hq : d.q = φ.key nic i) (hr : d.Routed)
    {l : List Byte} (hn : n = BitVec.ofNat 64 l.length) (hl : l.length ≤ 65495)
    (hdata : data.bytes l.length = l) :
    Posts φ nic i frames d.rteTcpHdr.tcpFlags d.sendSequenceSpace.nxt d.receiveSequenceSpace.nxt
      l := by
  subst hn
  rcases sendP_some h with ⟨-, hno⟩ | ⟨rfl, -, -⟩
  · cases hm.symm.trans hno
  · obtain ⟨s, hs, -⟩ := txFrame_brings (K := K) hq hr ht hj hl hdata
    exact ⟨_, s, rfl, hs⟩

theorem sendP_posts_empty {d : Connection} {frames : List Frame} {data : Mem}
    (h : sendP env t (txHeaders K d 0) data 0 = some frames) (hm : env.mbuf = true)
    (hj : Joined nic) (ht : t.nic = nic i) (hq : d.q = φ.key nic i) (hr : d.Routed) :
    Posts φ nic i frames d.rteTcpHdr.tcpFlags d.sendSequenceSpace.nxt d.receiveSequenceSpace.nxt
      [] := sendP_posts (l := []) h hm hj ht hq hr rfl (Nat.zero_le _) rfl

/-! ### Opening -/

theorem slot_handled {p : Packet} {s : Seg} {c : Connection} {o : Option Connection} {out : Out}
    (hs : rxSegment t.nic env.pad p = some s) (h : Slot K env t (.rx p) (some c) o out) :
    Rx K env t c s o out := by
  cases h with
  | dropped hd => cases hd.symm.trans hs
  | handled hs' hrx =>
    cases hs'.symm.trans hs
    exact hrx

section
variable {c : Connection} {s : Seg} {o : Option Connection} {out : Out}
  {una nxt rcv : BitVec 32}

theorem synSent_answers (h : Rx K env t c s o out) (hc : c.Stands .synSent una nxt rcv)
    (hh : Holds φ nic i env t c) (h0 : s.size = 0) (ha : ackCheck c s.ackn = true) :
    (∃ d, o = some d ∧ d.Stands .established (s.ackn + 1) nxt (s.seq + 1)) ∧
      Posts φ nic i out.frames rteTcpAckFlag nxt (s.seq + 1) [] ∧ out.printed = [] := by
  cases h with
  | ignored hno =>
    unfold Connection.accepts at hno
    rw [hc.state] at hno
    cases hno
  | @synAnswered d frames _ hd hp =>
    rcases hd with ⟨-, rfl⟩ | ⟨hno, -⟩
    · have hsize : sizeT s.size = 0 := by rw [h0]; rfl
      rw [hsize] at hp ⊢
      have hpost := sendP_posts_empty hp hh.buffer hh.joined hh.here hh.key hh.routed
      refine ⟨⟨_, rfl, ?_, ?_, ?_, ?_, ?_⟩, ?_, rfl⟩
      · rw [sent_tcpState]
        rfl
      · rw [sent_una]
        rfl
      · rw [sent_nxt_plain (synAnswered_quiet ..)]
        exact hc.nxt
      · rw [sent_receiveSequenceSpace]
        rfl
      · rw [sent_receiveSequenceSpace]
        exact hc.wnd
      · rw [← hc.nxt]
        exact hpost
    · cases hno.symm.trans ha
  | synAgain hst _ _ _ => cases hst.symm.trans hc.state
  | synAcked hst _ _ => cases hst.symm.trans hc.state
  | finAnswered hst _ _ _ => cases hst.symm.trans hc.state
  | acked hst _ _ _ => cases hst.symm.trans hc.state
  | dataAnswered hst _ _ _ _ => cases hst.symm.trans hc.state
  | finAcked hst _ _ _ => cases hst.symm.trans hc.state
  | finAcked2 hst _ _ => cases hst.symm.trans hc.state
  | closed hst => cases hst.symm.trans hc.state

theorem synRecv_takes (h : Rx K env t c s o out) (hc : c.Stands .synRecv una nxt rcv)
    (h0 : s.size = 0) (hseq : s.seq = rcv) (ha : ackCheck c s.ackn = true) :
    (∃ d, o = some d ∧ d.Stands .established una nxt rcv) ∧ out = {} := by
  have hsc : segmentCheck c s.size s.seq = true := by
    rw [h0]
    exact segmentCheck_self (hc.rcv.trans hseq.symm)
  cases h with
  | ignored hno =>
    unfold Connection.accepts at hno
    rw [hc.state] at hno
    simp [hsc, ha] at hno
  | synAcked _ _ _ => exact ⟨⟨_, rfl, rfl, hc.una, hc.nxt, hc.rcv, hc.wnd⟩, rfl⟩
  | synAgain _ hno _ _ => cases hno.symm.trans hsc
  | synAnswered hst _ _ => cases hst.symm.trans hc.state
  | finAnswered hst _ _ _ => cases hst.symm.trans hc.state
  | acked hst _ _ _ => cases hst.symm.trans hc.state
  | dataAnswered hst _ _ _ _ => cases hst.symm.trans hc.state
  | finAcked hst _ _ _ => cases hst.symm.trans hc.state
  | finAcked2 hst _ _ => cases hst.symm.trans hc.state
  | closed hst => cases hst.symm.trans hc.state

/-! ### Exchanging data -/

theorem sends_data {x : Quad} {data : List Byte} (h : Slot K env t (.send x data) (some c) o out)
    {st : TcpState} (hc : c.Stands st una nxt rcv) (hh : Holds φ nic i env t c)
    (hl : data.length ≤ 65495) :
    (∃ d, o = some d ∧ d.Stands st una nxt rcv) ∧
      Posts φ nic i out.frames (rteTcpAckFlag ||| rteTcpPshFlag) nxt rcv data := by
  have hsize : sizeT (BitVec.ofNat 32 data.length) = BitVec.ofNat 64 data.length := by
    apply BitVec.eq_of_toInt_eq
    rw [sizeT_toInt, BitVec.toInt_eq_toNat_cond, BitVec.toInt_eq_toNat_cond, BitVec.toNat_ofNat,
      BitVec.toNat_ofNat]
    omega
  cases h with
  | dataSent hp =>
    have hpost := sendP_posts hp hh.buffer hh.joined hh.here hh.key hh.routed hsize hl
      (tokenMem_eq.mpr rfl)
    refine ⟨⟨_, rfl, ?_, ?_, ?_, ?_, ?_⟩, ?_⟩
    · rw [sent_tcpState]
      exact hc.state
    · rw [sent_una]
      exact hc.una
    · rw [sent_nxt_plain (loaded_quiet ..)]
      exact hc.nxt
    · rw [sent_receiveSequenceSpace]
      exact hc.rcv
    · rw [sent_receiveSequenceSpace]
      exact hc.wnd
    · rw [← hc.nxt, ← hc.rcv]
      exact hpost

/-- What TCP_ESTABLISHED does with a segment it accepts. -/
theorem Rx.of_established (h : Rx K env t c s o out) (hst : c.tcpState = .established)
    (hsc : segmentCheck c s.size s.seq = true) :
    (s.tcpHdr.has rteTcpFinFlag = true ∧ ∃ frames,
      sendP env t (txHeaders K (c.finAnswered s) (sizeT s.size)) s.data (sizeT s.size) =
        some frames ∧
      o = some { (c.finAnswered s).sent K (sizeT s.size) with tcpState := .lastAck } ∧
      out = { frames }) ∨
    (s.tcpHdr.has rteTcpFinFlag = false ∧ s.size = 0 ∧
      o = some { c with sendSequenceSpace.nxt := s.ackn } ∧ out = {}) ∨
    (s.tcpHdr.has rteTcpFinFlag = false ∧ s.size ≠ 0 ∧ ∃ frames,
      sendP env t (txHeaders K (c.dataAnswered s) 0) Mem.null 0 = some frames ∧
      o = some ((c.dataAnswered s).sent K 0) ∧
      out = { frames, printed := printData s.data s.size }) := by
  cases h with
  | ignored hno =>
    unfold Connection.accepts at hno
    rw [hst] at hno
    cases hno.symm.trans hsc
  | finAnswered _ _ hf hp => exact Or.inl ⟨hf, _, hp, rfl, rfl⟩
  | acked _ _ hf h0 => exact Or.inr (Or.inl ⟨hf, h0, rfl, rfl⟩)
  | dataAnswered _ _ hf h0 hp => exact Or.inr (Or.inr ⟨hf, h0, _, hp, rfl, rfl⟩)
  | synAgain h _ _ _ => cases hst.symm.trans h
  | synAcked h _ _ => cases hst.symm.trans h
  | synAnswered h _ _ => cases hst.symm.trans h
  | finAcked h _ _ _ => cases hst.symm.trans h
  | finAcked2 h _ _ => cases hst.symm.trans h
  | closed h => cases hst.symm.trans h

theorem established_prints (h : Rx K env t c s o out) (hc : c.Stands .established una nxt rcv)
    (hh : Holds φ nic i env t c) {data : List Byte} (hpos : data ≠ []) (hl : data.length ≤ 65495)
    (hsize : s.size = BitVec.ofNat 32 data.length) (hdata : s.data.bytes data.length = data)
    (hfin : s.tcpHdr.has rteTcpFinFlag = false) :
    (∃ d, o = some d ∧ d.Stands .established una s.ackn (s.seq + BitVec.ofNat 32 data.length)) ∧
      Posts φ nic i out.frames rteTcpAckFlag s.ackn (s.seq + BitVec.ofNat 32 data.length) [] ∧
      out.printed = data := by
  have hlen : 0 < data.length := List.length_pos_of_ne_nil hpos
  have hint : s.size.toInt = data.length := by
    rw [hsize, BitVec.toInt_eq_toNat_cond, BitVec.toNat_ofNat]
    omega
  have hne : s.size ≠ 0 := by
    intro h0
    rw [h0] at hint
    change (0 : Int) = _ at hint
    omega
  rcases h.of_established hc.state ((segmentCheck_data hne).mpr hc.wnd) with
    ⟨hf, -⟩ | ⟨-, h0, -⟩ | ⟨-, -, frames, hp, rfl, rfl⟩
  · cases hf.symm.trans hfin
  · exact absurd h0 hne
  · have hpost := sendP_posts_empty hp hh.buffer hh.joined hh.here hh.key hh.routed
    refine ⟨⟨_, rfl, ?_, ?_, ?_, ?_, ?_⟩, ?_, ?_⟩
    · rw [sent_tcpState]
      exact hc.state
    · rw [sent_una]
      exact hc.una
    · rw [sent_nxt_plain (dataAnswered_quiet ..)]
      rfl
    · rw [sent_receiveSequenceSpace, ← hsize]
      rfl
    · rw [sent_receiveSequenceSpace]
      exact hc.wnd
    · rw [← hsize]
      exact hpost
    · show printData s.data s.size = data
      unfold printData
      rw [hint]
      exact hdata

theorem established_acked (h : Rx K env t c s o out) (hc : c.Stands .established una nxt rcv)
    (h0 : s.size = 0) (hseq : s.seq = rcv) (hfin : s.tcpHdr.has rteTcpFinFlag = false) :
    (∃ d, o = some d ∧ d.Stands .established una s.ackn rcv) ∧ out = {} := by
  have hsc : segmentCheck c s.size s.seq = true := by
    rw [h0]
    exact segmentCheck_self (hc.rcv.trans hseq.symm)
  rcases h.of_established hc.state hsc with ⟨hf, -⟩ | ⟨-, -, rfl, rfl⟩ | ⟨-, hne, -⟩
  · cases hf.symm.trans hfin
  · exact ⟨⟨_, rfl, hc.state, hc.una, rfl, hc.rcv, hc.wnd⟩, rfl⟩
  · exact absurd h0 hne

/-! ### Closing -/

theorem sends_fin {x : Quad} (h : Slot K env t (.close x) (some c) o out) {st : TcpState}
    (hc : c.Stands st una nxt rcv) (hh : Holds φ nic i env t c) :
    (∃ d, o = some d ∧ d.Stands .finWait1 una (nxt + 1) rcv) ∧
      Posts φ nic i out.frames (rteTcpFinFlag ||| rteTcpAckFlag) nxt rcv [] := by
  cases h with
  | finSent hp =>
    have hpost := sendP_posts_empty hp hh.buffer hh.joined hh.here hh.key hh.routed
    refine ⟨⟨_, rfl, rfl, ?_, ?_, ?_, ?_⟩, ?_⟩
    · show (c.finRaised.sent K 0).sendSequenceSpace.una = _
      rw [sent_una]
      exact hc.una
    · show (c.finRaised.sent K 0).sendSequenceSpace.nxt = _
      rw [finRaised_nxt, hc.nxt]
    · show (c.finRaised.sent K 0).receiveSequenceSpace.nxt = _
      rw [sent_receiveSequenceSpace]
      exact hc.rcv
    · show (c.finRaised.sent K 0).receiveSequenceSpace.wnd ≠ 0
      rw [sent_receiveSequenceSpace]
      exact hc.wnd
    · rw [← hc.nxt, ← hc.rcv]
      exact hpost

theorem established_closes (h : Rx K env t c s o out) (hc : c.Stands .established una nxt rcv)
    (hh : Holds φ nic i env t c) (h0 : s.size = 0) (hseq : s.seq = rcv)
    (hfin : s.tcpHdr.has rteTcpFinFlag = true) :
    (∃ d, o = some d ∧ d.Stands .lastAck una (nxt + 1) (rcv + 1)) ∧
      Posts φ nic i out.frames (rteTcpFinFlag ||| rteTcpAckFlag) nxt (rcv + 1) [] ∧
      out.printed = [] := by
  have hsc : segmentCheck c s.size s.seq = true := by
    rw [h0]
    exact segmentCheck_self (hc.rcv.trans hseq.symm)
  rcases h.of_established hc.state hsc with ⟨-, frames, hp, rfl, rfl⟩ | ⟨hf, -⟩ | ⟨hf, -⟩
  · have hsize : sizeT s.size = 0 := by rw [h0]; rfl
    rw [hsize] at hp ⊢
    have hpost := sendP_posts_empty hp hh.buffer hh.joined hh.here hh.key hh.routed
    refine ⟨⟨_, rfl, rfl, ?_, ?_, ?_, ?_⟩, ?_, rfl⟩
    · show ((c.finAnswered s).sent K 0).sendSequenceSpace.una = _
      rw [sent_una]
      exact hc.una
    · show ((c.finAnswered s).sent K 0).sendSequenceSpace.nxt = _
      rw [sent_nxt_flags (f := rteTcpFinFlag ||| rteTcpAckFlag) rfl (by decide), ← hc.nxt]
      rfl
    · show ((c.finAnswered s).sent K 0).receiveSequenceSpace.nxt = _
      rw [sent_receiveSequenceSpace, ← hseq]
      rfl
    · show ((c.finAnswered s).sent K 0).receiveSequenceSpace.wnd ≠ 0
      rw [sent_receiveSequenceSpace]
      exact hc.wnd
    · rw [← hc.nxt, ← hseq]
      exact hpost
  · cases hfin.symm.trans hf
  · cases hfin.symm.trans hf

theorem finWait1_takes (h : Rx K env t c s o out) (hc : c.Stands .finWait1 una nxt rcv)
    (hh : Holds φ nic i env t c) (h0 : s.size = 0) (hseq : s.seq = rcv) :
    (ackCheck c s.ackn = true ∧ o = none ∧
      Posts φ nic i out.frames rteTcpAckFlag nxt (rcv + 1) [] ∨
    ackCheck c s.ackn = false ∧ o = some c ∧ out.frames = []) ∧ out.printed = [] := by
  have hsc : segmentCheck c s.size s.seq = true := by
    rw [h0]
    exact segmentCheck_self (hc.rcv.trans hseq.symm)
  cases h with
  | ignored hno =>
    unfold Connection.accepts at hno
    rw [hc.state, hsc] at hno
    exact ⟨Or.inr ⟨hno, rfl, rfl⟩, rfl⟩
  | finAcked _ _ ha hp =>
    have hpost := sendP_posts_empty hp hh.buffer hh.joined hh.here hh.key hh.routed
    refine ⟨Or.inl ⟨ha, rfl, ?_⟩, rfl⟩
    rw [← hc.nxt, ← hseq]
    exact hpost
  | synAgain hst _ _ _ => cases hst.symm.trans hc.state
  | synAcked hst _ _ => cases hst.symm.trans hc.state
  | synAnswered hst _ _ => cases hst.symm.trans hc.state
  | finAnswered hst _ _ _ => cases hst.symm.trans hc.state
  | acked hst _ _ _ => cases hst.symm.trans hc.state
  | dataAnswered hst _ _ _ _ => cases hst.symm.trans hc.state
  | finAcked2 hst _ _ => cases hst.symm.trans hc.state
  | closed hst => cases hst.symm.trans hc.state

theorem lastAck_leaves (h : Rx K env t c s o out) (hst : c.tcpState = .lastAck) :
    o = none ∧ out = {} := by
  cases h with
  | ignored hno =>
    unfold Connection.accepts at hno
    rw [hst] at hno
    cases hno
  | closed _ => exact ⟨rfl, rfl⟩
  | synAgain h _ _ _ => cases hst.symm.trans h
  | synAcked h _ _ => cases hst.symm.trans h
  | synAnswered h _ _ => cases hst.symm.trans h
  | finAnswered h _ _ _ => cases hst.symm.trans h
  | acked h _ _ _ => cases hst.symm.trans h
  | dataAnswered h _ _ _ _ => cases hst.symm.trans h
  | finAcked h _ _ _ => cases hst.symm.trans h
  | finAcked2 h _ _ => cases hst.symm.trans h

end

/-! ### Making the connection -/

section
variable {k k' : Core} {out : Out}

theorem connect_posts {dip : BitVec 32} {dport sport : BitVec 16}
    (h : step K k ⟨.connect dip dport sport, env⟩ = some (k', out))
    (hk : keyOf k.tcp.nic ⟨.connect dip dport sport, env⟩ = φ.key nic i)
    (hrep : k.Rep) (hnew : k.conn (φ.key nic i) = none) (hroom : k.tcp.rteHash.Room (φ.key nic i))
    (hm : env.mbuf = true) (hj : Joined nic) (ht : k.tcp.nic = nic i) :
    (∃ c, k'.conn (φ.key nic i) = some c ∧ c.Stands .synSent iss (iss + 1) iss) ∧
      ∃ f s, out.frames = [f] ∧
        Brings (nic i.other) (φ.key nic i.other) f.packet rteTcpSynFlag iss iss [] s ∧
        rteBeToCpu16 s.tcpHdr.rxWin ≠ 0 := by
  have hatt : Attempts k ⟨.connect dip dport sport, env⟩ :=
    ⟨by rw [hk]; exact lookup_of_conn_none hrep hnew, rfl⟩
  obtain ⟨g, c, data, n, frames, -, hmade, hp, rfl, rfl⟩ := step_attempt hatt h
  have hq : c.q = φ.key nic i := (made_key hmade).trans hk
  rw [hk]
  cases hmade with
  | connected =>
    constructor
    · refine ⟨_, inserted_conn hroom _, ?_, ?_, ?_, ?_, ?_⟩
      · rw [sent_tcpState]
        rfl
      · rw [sent_una]
        rfl
      · rw [sent_nxt_flags (f := rteTcpSynFlag) rfl (by decide)]
        rfl
      · rw [sent_receiveSequenceSpace]
        rfl
      · rw [sent_receiveSequenceSpace]
        show (64240 : BitVec 16) ≠ 0
        decide
    · rcases sendP_some hp with ⟨-, hno⟩ | ⟨rfl, -, -⟩
      · cases hm.symm.trans hno
      · have hdata : Mem.null.bytes 0 = [] := rfl
        obtain ⟨s, hs, hwin⟩ := txFrame_brings (K := K) hq rfl ht hj (l := []) (Nat.zero_le _) hdata
        refine ⟨_, s, rfl, hs, ?_⟩
        rw [hwin]
        show rteBeToCpu16 (rteCpuToBe16 64240) ≠ 0
        rw [rteBeToCpu16_rteCpuToBe16]
        decide

theorem listen_posts {p : Packet} {s : Seg}
    (h : step K k ⟨.rx p, env⟩ = some (k', out)) (hs : rxSegment k.tcp.nic env.pad p = some s)
    (hkey : s.q = φ.key nic i) (hf : s.tcpHdr.tcpFlags = rteTcpSynFlag) (h0 : s.size = 0)
    (hwin : rteBeToCpu16 s.tcpHdr.rxWin ≠ 0) (hrep : k.Rep)
    (hnew : k.conn (φ.key nic i) = none) (hroom : k.tcp.rteHash.Room (φ.key nic i))
    (hm : env.mbuf = true) (hj : Joined nic) (ht : k.tcp.nic = nic i) :
    (∃ c, k'.conn (φ.key nic i) = some c ∧ c.Stands .synRecv iss (iss + 1) (s.seq + 1)) ∧
      Posts φ nic i out.frames (rteTcpSynFlag ||| rteTcpAckFlag) iss (s.seq + 1) [] ∧
      out.printed = [] := by
  have hk : keyOf k.tcp.nic ⟨.rx p, env⟩ = φ.key nic i := by
    rw [← hkey]
    obtain ⟨-, rfl⟩ := rxSegment_some hs
    rfl
  have hatt : Attempts k ⟨.rx p, env⟩ :=
    ⟨by rw [hk]; exact lookup_of_conn_none hrep hnew, by simp [Input.opens, hs, hf]⟩
  obtain ⟨g, c, data, n, frames, -, hmade, hp, rfl, rfl⟩ := step_attempt hatt h
  have hq : c.q = φ.key nic i := (made_key hmade).trans hk
  rw [hk]
  cases hmade with
  | listened hs' _ =>
    cases hs'.symm.trans hs
    have hsize : sizeT s.size = 0 := by rw [h0]; rfl
    rw [hsize] at hp ⊢
    refine ⟨⟨_, inserted_conn hroom _, ?_, ?_, ?_, ?_, ?_⟩, ?_, rfl⟩
    · rw [sent_tcpState]
      rfl
    · rw [sent_una]
      rfl
    · rw [sent_nxt_flags (f := rteTcpSynFlag ||| rteTcpAckFlag) rfl (by decide)]
      rfl
    · rw [sent_receiveSequenceSpace]
      rfl
    · rw [sent_receiveSequenceSpace]
      exact hwin
    · exact sendP_posts_empty hp hm hj ht hq rfl

end

end

end TcpDpdk

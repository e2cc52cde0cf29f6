import TcpDpdk.Transmit

/-!
# The segment handlers

One function per state, as dispatched on by the receive loop, and after each one
the cases it can end in. A handler is given the core and the connection it was
called on and returns both as it leaves them; `none` is a crash.
-/

namespace TcpDpdk

/-- The arguments every handler is called with. `size` is a C `int`. -/
structure Seg where
  q : Quad
  tcpHdr : TcpHdr
  ipv4Hdr : Ipv4Hdr
  data : Mem
  size : BitVec 32

def Seg.seq (s : Seg) : BitVec 32 := rteBeToCpu32 s.tcpHdr.sentSeq
def Seg.ackn (s : Seg) : BitVec 32 := rteBeToCpu32 s.tcpHdr.recvAck

structure Ret where
  tcp : Tcp
  conn : Connection
  out : Out

/-- The bytes written, without the line feed that follows them. -/
def printData (data : Mem) (size : BitVec 32) : List Byte := data.bytes size.toInt.toNat

def rteHashDelKey (t : Tcp) (q : Quad) : Tcp := { t with rteHash := t.rteHash.del q }

/-- The comparison three handlers make before they take an acknowledgment. -/
def ackCheck (c : Connection) (ackn : BitVec 32) : Bool :=
  isBetweenWrapped (c.sendSequenceSpace.una - 1) ackn (c.sendSequenceSpace.nxt + 1)

/-! ## TCP_LISTEN -/

def listenConnection (g : Connection) (s : Seg) : Connection :=
  let wnd : BitVec 16 := 64240
  { g with
    q := s.q
    tcpState := .synRecv
    sendSequenceSpace := { g.sendSequenceSpace with
      una := iss, nxt := iss, wnd, up := false, wl1 := 0, wl2 := 0 }
    receiveSequenceSpace := {
      irs := s.seq
      nxt := s.seq + 1
      wnd := rteBeToCpu16 s.tcpHdr.rxWin
      up := false }
    rteIpv4Hdr := { g.rteIpv4Hdr with srcAddr := s.q.dip, dstAddr := s.q.sip }
    rteTcpHdr := { g.rteTcpHdr with
      srcPort := s.q.dport
      dstPort := s.q.sport
      sentSeq := 0
      rxWin := rteCpuToBe16 wnd
      tcpFlags := rteTcpSynFlag ||| rteTcpAckFlag } }

/-- Returns `NULL` or the new connection. The result of `rte_malloc` is written
to without a test. -/
def handleTcpListen (K : RteCksum) (env : Env) (t : Tcp) (s : Seg) :
    Option (Option Connection × Out) :=
  if s.tcpHdr.tcpFlags ≠ rteTcpSynFlag then
    some (none, {})
  else
    match env.object with
    | none => none
    | some g =>
      (tcpTxPackets K env t (listenConnection g s) s.data (sizeT s.size)).map fun (c, frames) =>
        (some c, { frames })

theorem handleTcpListen_cases {K : RteCksum} {env : Env} {t : Tcp} {s : Seg}
    {r : Option Connection × Out} (h : handleTcpListen K env t s = some r) :
    (s.tcpHdr.tcpFlags ≠ rteTcpSynFlag ∧ r = (none, {})) ∨
      ∃ g frames, s.tcpHdr.tcpFlags = rteTcpSynFlag ∧ env.object = some g ∧
        sendP env t (txHeaders K (listenConnection g s) (sizeT s.size)) s.data (sizeT s.size) =
          some frames ∧
        r = (some ((listenConnection g s).sent K (sizeT s.size)), { frames }) := by
  unfold handleTcpListen at h
  split at h
  · rename_i hf
    exact Or.inl ⟨hf, (Option.some.inj h).symm⟩
  · rename_i hf
    split at h
    · cases h
    · rename_i g hg
      obtain ⟨⟨d, frames⟩, hx, rfl⟩ := Option.map_eq_some_iff.mp h
      obtain ⟨rfl, hp⟩ := tcpTxPackets_some hx
      exact Or.inr ⟨g, frames, not_not.mp hf, hg, hp, rfl⟩

/-! ## TCP_SYN_RECV -/

/-- The connection as it is when a SYN out of the window is answered again. -/
def Connection.unsent (c : Connection) : Connection :=
  { c with
    sendSequenceSpace.nxt := c.sendSequenceSpace.nxt - 1
    rteTcpHdr.tcpFlags := c.rteTcpHdr.tcpFlags ||| rteTcpSynFlag }

theorem unsent_has_syn {c : Connection} (h : c.Quiet) :
    c.unsent.rteTcpHdr.has rteTcpSynFlag = true := by
  rw [← Bool.not_eq_false, TcpHdr.has_eq_false]
  show ¬((c.rteTcpHdr.tcpFlags ||| rteTcpSynFlag) &&& rteTcpSynFlag = 0)
  rw [BitVec.and_or_distrib_right, TcpHdr.has_eq_false.mp h.1]
  decide

theorem unsent_has_fin {c : Connection} (h : c.Quiet) :
    c.unsent.rteTcpHdr.has rteTcpFinFlag = false := by
  rw [TcpHdr.has_eq_false]
  show (c.rteTcpHdr.tcpFlags ||| rteTcpSynFlag) &&& rteTcpFinFlag = 0
  rw [BitVec.and_or_distrib_right, TcpHdr.has_eq_false.mp h.2]
  rfl

theorem unsent_nxt {K : RteCksum} {c : Connection} {n : BitVec 64} (h : c.Quiet) :
    (c.unsent.sent K n).sendSequenceSpace.nxt = c.sendSequenceSpace.nxt := by
  rw [sent_nxt_flag (by rw [unsent_has_syn h, unsent_has_fin h]; decide)]
  exact sub_add_cancel ..

def handleTcpSynRecv (K : RteCksum) (env : Env) (t : Tcp) (c : Connection) (s : Seg) : Option Ret :=
  if segmentCheck c s.size s.seq = false then
    if s.tcpHdr.has rteTcpSynFlag then
      (tcpTxPackets K env t c.unsent s.data (sizeT s.size)).map fun (c, frames) =>
        ⟨t, c, { frames }⟩
    else
      some ⟨t, c, {}⟩
  else if ackCheck c s.ackn then
    let c := { c with tcpState := .established }
    let stats :=
      if t.stats.firstConnection = 0 then { t.stats with firstConnection := env.clock }
      else { t.stats with lastConnection := env.clock }
    let stats := { stats with connectionCount := stats.connectionCount + 1 }
    some ⟨{ t with stats }, c, {}⟩
  else
    some ⟨t, c, {}⟩

theorem handleTcpSynRecv_cases {K : RteCksum} {env : Env} {t : Tcp} {c : Connection} {s : Seg}
    {r : Ret} (h : handleTcpSynRecv K env t c s = some r) :
    (∃ frames, segmentCheck c s.size s.seq = false ∧ s.tcpHdr.has rteTcpSynFlag = true ∧
      sendP env t (txHeaders K c.unsent (sizeT s.size)) s.data (sizeT s.size) = some frames ∧
      r = ⟨t, c.unsent.sent K (sizeT s.size), { frames }⟩) ∨
    (segmentCheck c s.size s.seq = true ∧ ackCheck c s.ackn = true ∧
      ∃ stats, r = ⟨{ t with stats }, { c with tcpState := .established }, {}⟩) ∨
    ((segmentCheck c s.size s.seq = true → ackCheck c s.ackn = false) ∧
      (segmentCheck c s.size s.seq = false → s.tcpHdr.has rteTcpSynFlag = false) ∧
      r = ⟨t, c, {}⟩) := by
  unfold handleTcpSynRecv at h
  split at h
  · rename_i hs
    split at h
    · rename_i hf
      obtain ⟨⟨d, frames⟩, hx, rfl⟩ := Option.map_eq_some_iff.mp h
      obtain ⟨rfl, hp⟩ := tcpTxPackets_some hx
      exact Or.inl ⟨frames, hs, hf, hp, rfl⟩
    · rename_i hf
      exact Or.inr (Or.inr ⟨by simp [hs], fun _ => by simpa using hf, (Option.some.inj h).symm⟩)
  · rename_i hs
    rw [Bool.not_eq_false] at hs
    split at h
    · rename_i ha
      exact Or.inr (Or.inl ⟨hs, ha, _, (Option.some.inj h).symm⟩)
    · rename_i ha
      exact Or.inr (Or.inr ⟨fun _ => by simpa using ha, by simp [hs], (Option.some.inj h).symm⟩)

/-! ## TCP_SYN_SENT -/

def Connection.synAnswered (c : Connection) (s : Seg) : Connection :=
  { c with
    rteTcpHdr.tcpFlags := rteTcpAckFlag
    receiveSequenceSpace.nxt := s.seq + 1 }

theorem synAnswered_quiet (c : Connection) (s : Seg) : (c.synAnswered s).Quiet :=
  quiet_of_flags (f := rteTcpAckFlag) rfl (by decide)

def handleTcpSynSent (K : RteCksum) (env : Env) (t : Tcp) (c : Connection) (s : Seg) : Option Ret :=
  let c := { c with receiveSequenceSpace.nxt := s.seq }
  if segmentCheck c 0 s.seq then
    let c :=
      if ackCheck c s.ackn then
        { c with tcpState := .established, sendSequenceSpace.una := s.ackn + 1 }
      else c
    (tcpTxPackets K env t (c.synAnswered s) s.data (sizeT s.size)).map fun (c, frames) =>
      ⟨t, c, { frames }⟩
  else
    some ⟨t, c, {}⟩

/-- The acceptance test of this handler never fails: `rcv.nxt` was just set to
the segment's own sequence number. Every segment is answered. -/
theorem handleTcpSynSent_cases {K : RteCksum} {env : Env} {t : Tcp} {c : Connection} {s : Seg}
    {r : Ret} (h : handleTcpSynSent K env t c s = some r) :
    ∃ d frames,
      (ackCheck c s.ackn = true ∧
          d = { c with tcpState := .established, sendSequenceSpace.una := s.ackn + 1 } ∨
        ackCheck c s.ackn = false ∧ d = c) ∧
      sendP env t (txHeaders K (d.synAnswered s) (sizeT s.size)) s.data (sizeT s.size) =
        some frames ∧
      r = ⟨t, (d.synAnswered s).sent K (sizeT s.size), { frames }⟩ := by
  unfold handleTcpSynSent at h
  rw [if_pos (segmentCheck_self rfl)] at h
  obtain ⟨⟨d, frames⟩, hx, rfl⟩ := Option.map_eq_some_iff.mp h
  obtain ⟨rfl, hp⟩ := tcpTxPackets_some hx
  have ha : ackCheck { c with receiveSequenceSpace.nxt := s.seq } s.ackn = ackCheck c s.ackn := rfl
  cases hc : ackCheck c s.ackn with
  | true =>
    simp only [ha, hc, ite_true] at hp ⊢
    exact ⟨_, frames, Or.inl ⟨trivial, rfl⟩, hp, rfl⟩
  | false =>
    simp only [ha, hc, Bool.false_eq_true, ite_false] at hp ⊢
    exact ⟨c, frames, Or.inr ⟨trivial, rfl⟩, hp, rfl⟩

/-! ## TCP_ESTABLISHED -/

def Connection.finAnswered (c : Connection) (s : Seg) : Connection :=
  { c with
    tcpState := .closeWait
    rteTcpHdr.tcpFlags := rteTcpFinFlag ||| rteTcpAckFlag
    receiveSequenceSpace.nxt := s.seq + 1 }

def Connection.dataAnswered (c : Connection) (s : Seg) : Connection :=
  { c with
    rteTcpHdr.tcpFlags := rteTcpAckFlag
    receiveSequenceSpace.nxt := s.seq + s.size
    sendSequenceSpace.nxt := s.ackn }

theorem dataAnswered_quiet (c : Connection) (s : Seg) : (c.dataAnswered s).Quiet :=
  quiet_of_flags (f := rteTcpAckFlag) rfl (by decide)

def handleTcpEstablish (K : RteCksum) (env : Env) (t : Tcp) (c : Connection) (s : Seg) :
    Option Ret :=
  if segmentCheck c s.size s.seq then
    if s.tcpHdr.has rteTcpFinFlag then
      (tcpTxPackets K env t (c.finAnswered s) s.data (sizeT s.size)).map fun (c, frames) =>
        ⟨t, { c with tcpState := .lastAck }, { frames }⟩
    else if s.size = 0 then
      some ⟨t, { c with sendSequenceSpace.nxt := s.ackn }, {}⟩
    else
      (tcpTxPackets K env t (c.dataAnswered s) Mem.null 0).map fun (c, frames) =>
        ⟨t, c, { frames, printed := printData s.data s.size }⟩
  else
    some ⟨t, c, {}⟩

theorem handleTcpEstablish_cases {K : RteCksum} {env : Env} {t : Tcp} {c : Connection} {s : Seg}
    {r : Ret} (h : handleTcpEstablish K env t c s = some r) :
    (∃ frames, segmentCheck c s.size s.seq = true ∧ s.tcpHdr.has rteTcpFinFlag = true ∧
      sendP env t (txHeaders K (c.finAnswered s) (sizeT s.size)) s.data (sizeT s.size) =
        some frames ∧
      r = ⟨t, { (c.finAnswered s).sent K (sizeT s.size) with tcpState := .lastAck }, { frames }⟩) ∨
    (segmentCheck c s.size s.seq = true ∧ s.tcpHdr.has rteTcpFinFlag = false ∧ s.size = 0 ∧
      r = ⟨t, { c with sendSequenceSpace.nxt := s.ackn }, {}⟩) ∨
    (∃ frames, segmentCheck c s.size s.seq = true ∧ s.tcpHdr.has rteTcpFinFlag = false ∧
      s.size ≠ 0 ∧ sendP env t (txHeaders K (c.dataAnswered s) 0) Mem.null 0 = some frames ∧
      r = ⟨t, (c.dataAnswered s).sent K 0, { frames, printed := printData s.data s.size }⟩) ∨
    (segmentCheck c s.size s.seq = false ∧ r = ⟨t, c, {}⟩) := by
  unfold handleTcpEstablish at h
  split at h
  · rename_i hs
    split at h
    · rename_i hf
      obtain ⟨⟨d, frames⟩, hx, rfl⟩ := Option.map_eq_some_iff.mp h
      obtain ⟨rfl, hp⟩ := tcpTxPackets_some hx
      exact Or.inl ⟨frames, hs, hf, hp, rfl⟩
    · rename_i hf
      rw [Bool.not_eq_true] at hf
      split at h
      · rename_i h0
        exact Or.inr (Or.inl ⟨hs, hf, h0, (Option.some.inj h).symm⟩)
      · rename_i h0
        obtain ⟨⟨d, frames⟩, hx, rfl⟩ := Option.map_eq_some_iff.mp h
        obtain ⟨rfl, hp⟩ := tcpTxPackets_some hx
        exact Or.inr (Or.inr (Or.inl ⟨frames, hs, hf, h0, hp, rfl⟩))
  · rename_i hs
    rw [Bool.not_eq_true] at hs
    exact Or.inr (Or.inr (Or.inr ⟨hs, (Option.some.inj h).symm⟩))

/-! ## TCP_FIN_WAIT1, TCP_FIN_WAIT2, TCP_LAST_ACK -/

def Connection.finAcked (c : Connection) (s : Seg) : Connection :=
  { c with
    rteTcpHdr.tcpFlags := rteTcpAckFlag
    receiveSequenceSpace.nxt := s.seq + 1 }

theorem finAcked_quiet (c : Connection) (s : Seg) : (c.finAcked s).Quiet :=
  quiet_of_flags (f := rteTcpAckFlag) rfl (by decide)

def handleTcpFinWait1 (K : RteCksum) (env : Env) (t : Tcp) (c : Connection) (s : Seg) :
    Option Ret :=
  if segmentCheck c s.size s.seq = false then
    some ⟨t, c, {}⟩
  else if ackCheck c s.ackn then
    (tcpTxPackets K env t { c.finAcked s with tcpState := .finWait2 } Mem.null 0).map
      fun (c, frames) => ⟨rteHashDelKey t c.q, c, { frames }⟩
  else
    some ⟨t, c, {}⟩

theorem handleTcpFinWait1_cases {K : RteCksum} {env : Env} {t : Tcp} {c : Connection} {s : Seg}
    {r : Ret} (h : handleTcpFinWait1 K env t c s = some r) :
    (∃ frames, segmentCheck c s.size s.seq = true ∧ ackCheck c s.ackn = true ∧
      sendP env t (txHeaders K { c.finAcked s with tcpState := .finWait2 } 0) Mem.null 0 =
        some frames ∧
      r = ⟨rteHashDelKey t c.q, Connection.sent K { c.finAcked s with tcpState := .finWait2 } 0,
        { frames }⟩) ∨
    ((segmentCheck c s.size s.seq = true → ackCheck c s.ackn = false) ∧ r = ⟨t, c, {}⟩) := by
  unfold handleTcpFinWait1 at h
  split at h
  · rename_i hs
    exact Or.inr ⟨by simp [hs], (Option.some.inj h).symm⟩
  · rename_i hs
    rw [Bool.not_eq_false] at hs
    split at h
    · rename_i ha
      obtain ⟨⟨d, frames⟩, hx, rfl⟩ := Option.map_eq_some_iff.mp h
      obtain ⟨rfl, hp⟩ := tcpTxPackets_some hx
      exact Or.inl ⟨frames, hs, ha, hp, by simp only [sent_q]; rfl⟩
    · rename_i ha
      exact Or.inr ⟨fun _ => by simpa using ha, (Option.some.inj h).symm⟩

def handleTcpFinWait2 (K : RteCksum) (env : Env) (t : Tcp) (c : Connection) (s : Seg) :
    Option Ret :=
  if segmentCheck c s.size s.seq = false then
    some ⟨t, c, {}⟩
  else
    (tcpTxPackets K env t (c.finAcked s) s.data (sizeT s.size)).map fun (c, frames) =>
      ⟨rteHashDelKey t c.q, c, { frames }⟩

theorem handleTcpFinWait2_cases {K : RteCksum} {env : Env} {t : Tcp} {c : Connection} {s : Seg}
    {r : Ret} (h : handleTcpFinWait2 K env t c s = some r) :
    (∃ frames, segmentCheck c s.size s.seq = true ∧
      sendP env t (txHeaders K (c.finAcked s) (sizeT s.size)) s.data (sizeT s.size) =
        some frames ∧
      r = ⟨rteHashDelKey t c.q, (c.finAcked s).sent K (sizeT s.size), { frames }⟩) ∨
    (segmentCheck c s.size s.seq = false ∧ r = ⟨t, c, {}⟩) := by
  unfold handleTcpFinWait2 at h
  split at h
  · rename_i hs
    exact Or.inr ⟨hs, (Option.some.inj h).symm⟩
  · rename_i hs
    rw [Bool.not_eq_false] at hs
    obtain ⟨⟨d, frames⟩, hx, rfl⟩ := Option.map_eq_some_iff.mp h
    obtain ⟨rfl, hp⟩ := tcpTxPackets_some hx
    exact Or.inl ⟨frames, hs, hp, by simp only [sent_q]; rfl⟩

/-- Neither the sequence number nor the acknowledgment is looked at. -/
def handleTcpLastAck (t : Tcp) (c : Connection) : Ret :=
  let c := { c with tcpState := .close }
  ⟨rteHashDelKey t c.q, c, {}⟩

end TcpDpdk

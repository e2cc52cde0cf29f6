import TcpDpdk.Closing
import TcpDpdk.Handshake
import TcpDpdk.Lib.Network

/-!
# Exchanges of segments

Several instances of the stack answering each other's segments. Almost every
segment that is answered uses something up: a connection gets further, or data is
answered by an empty segment. Two answers do not, both while a SYN is out, and an
exchange goes on for ever only if it takes them infinitely often.
-/

namespace TcpDpdk

def link (K : RteCksum) : Network.Link (machine K) Env Packet where
  recv env p := ⟨.rx p, env⟩
  emit out := out.frames.map Frame.packet

/-! ## Load and weight -/

/-- How many answers a connection in the state may still have to give of its own. -/
def TcpState.pending : TcpState → Nat
  | .synSent => 2
  | .synRecv | .established | .finWait1 => 1
  | _ => 0

def Core.load (k : Core) : Nat := k.heap.sum fun c => c.tcpState.pending

def segWeight (h : TcpHdr) (size : BitVec 32) : Nat :=
  if h.tcpFlags = rteTcpSynFlag then 4 else if size = 0 then 1 else 2

def Packet.weight (p : Packet) : Nat := segWeight p.tcp (rxSize p.ipv4 p.tcp)

def Seg.weight (s : Seg) : Nat := segWeight s.tcpHdr s.size

theorem segWeight_pos (h : TcpHdr) (size : BitVec 32) : 1 ≤ segWeight h size := by
  unfold segWeight
  split
  · decide
  · split <;> decide

theorem segWeight_data (h : TcpHdr) {size : BitVec 32} (hs : size ≠ 0) : 2 ≤ segWeight h size := by
  unfold segWeight
  rw [if_neg hs]
  split <;> decide

theorem segWeight_syn {h : TcpHdr} (size : BitVec 32) (hf : h.tcpFlags = rteTcpSynFlag) :
    segWeight h size = 4 := if_pos hf

def framesWeight (frames : List Frame) : Nat := ((frames.map Frame.packet).map Packet.weight).sum

section
variable {K : RteCksum} {env : Env} {t : Tcp} {c : Connection} {data : Mem}

theorem rxSize_empty : rxSize (txHeaders K c 0).rteIpv4Hdr (txHeaders K c 0).rteTcpHdr = 0 := by
  show ((rteBeToCpu16 (rteCpuToBe16 ((20#64 + 20#64 + 0#64).setWidth 16))).setWidth 64 - 20#64 -
    ((5#8 <<< 4) >>> 4 <<< 2).setWidth 64).setWidth 32 = 0
  rw [rteBeToCpu16_rteCpuToBe16]
  decide

theorem sendP_weight {n : BitVec 64} {frames : List Frame}
    (h : sendP env t (txHeaders K c n) data n = some frames)
    (hf : c.rteTcpHdr.tcpFlags ≠ rteTcpSynFlag) :
    framesWeight frames ≤ 2 ∧ (n = 0 → framesWeight frames ≤ 1) := by
  rcases sendP_some h with ⟨rfl, -⟩ | ⟨rfl, -, -⟩
  · exact ⟨Nat.zero_le _, fun _ => Nat.zero_le _⟩
  · have hw : framesWeight [txFrame t (txHeaders K c n) data n] =
        if rxSize (txHeaders K c n).rteIpv4Hdr (txHeaders K c n).rteTcpHdr = 0 then 1 else 2 := by
      simp only [framesWeight, List.map_cons, List.map_nil, List.sum_cons, List.sum_nil]
      exact if_neg hf
    rw [hw]
    constructor
    · split <;> decide
    · rintro rfl
      rw [rxSize_empty]
      decide

theorem echo_weight {s : Seg} {frames : List Frame}
    (h : sendP env t (txHeaders K c (sizeT s.size)) data (sizeT s.size) = some frames)
    (hf : c.rteTcpHdr.tcpFlags ≠ rteTcpSynFlag) : framesWeight frames ≤ s.weight := by
  obtain ⟨h2, h1⟩ := sendP_weight h hf
  by_cases hs : s.size = 0
  · have := h1 (by rw [hs]; rfl)
    have := segWeight_pos s.tcpHdr s.size
    unfold Seg.weight
    omega
  · have := segWeight_data s.tcpHdr hs
    unfold Seg.weight
    omega

/-! ## One delivery -/

/-- The two answers that use nothing up: to a segment in TCP_SYN_SENT that does not
acknowledge the SYN, and to a SYN outside the window in TCP_SYN_RECV. -/
def Connection.Bounces (c : Connection) (s : Seg) : Prop :=
  c.tcpState = .synSent ∧ ackCheck c s.ackn = false ∨
    c.tcpState = .synRecv ∧ segmentCheck c s.size s.seq = false ∧
      s.tcpHdr.has rteTcpSynFlag = true

theorem ack_ne_syn : rteTcpAckFlag ≠ rteTcpSynFlag := by decide

theorem finAck_ne_syn : rteTcpFinFlag ||| rteTcpAckFlag ≠ rteTcpSynFlag := by decide

theorem synAck_ne_syn : rteTcpSynFlag ||| rteTcpAckFlag ≠ rteTcpSynFlag := by decide

/-- Apart from these, a handler's answer and what it leaves the connection to do
weigh less than the segment and what the connection had to do. -/
theorem rxSwitch_weight {s : Seg} {r : Ret} (h : rxSwitch K env t c s = some r)
    (hb : ¬c.Bounces s) (h2 : c.tcpState ≠ .finWait2) :
    r.conn.tcpState.pending + framesWeight r.out.frames < c.tcpState.pending + s.weight := by
  have hpos : 1 ≤ s.weight := segWeight_pos ..
  have same : c.tcpState.pending + framesWeight [] < c.tcpState.pending + s.weight := by
    show _ + 0 < _
    omega
  unfold rxSwitch at h
  split at h
  · rename_i hst
    rcases handleTcpSynRecv_cases h with ⟨frames, hc, hf, -, -⟩ | ⟨-, -, stats, rfl⟩ | ⟨-, -, rfl⟩
    · exact absurd (Or.inr ⟨hst, hc, hf⟩) hb
    · rw [hst]
      show 1 + 0 < 1 + _
      omega
    · exact same
  · rename_i hst
    rcases handleTcpEstablish_cases h with ⟨frames, -, -, hp, rfl⟩ | ⟨-, -, -, rfl⟩ |
      ⟨frames, -, -, h0, hp, rfl⟩ | ⟨-, rfl⟩
    · have := echo_weight hp finAck_ne_syn
      rw [hst]
      show 0 + framesWeight frames < 1 + _
      omega
    · exact same
    · have := (sendP_weight hp ack_ne_syn).2 rfl
      have hdata : 2 ≤ s.weight := segWeight_data _ h0
      simp only [sent_tcpState]
      show c.tcpState.pending + _ < _
      omega
    · exact same
  · rename_i hst
    obtain rfl := Option.some.inj h
    show 0 + 0 < _
    omega
  · rename_i hst
    obtain ⟨d, frames, hd, hp, rfl⟩ := handleTcpSynSent_cases h
    rcases hd with ⟨-, rfl⟩ | ⟨ha, -⟩
    · have := echo_weight hp ack_ne_syn
      rw [hst]
      simp only [sent_tcpState]
      show 1 + _ < 2 + _
      omega
    · exact absurd (Or.inl ⟨hst, ha⟩) hb
  · rename_i hst
    rcases handleTcpFinWait1_cases h with ⟨frames, -, -, hp, rfl⟩ | ⟨-, rfl⟩
    · have := (sendP_weight hp ack_ne_syn).2 rfl
      rw [hst]
      simp only [sent_tcpState]
      show 0 + _ < 1 + _
      omega
    · exact same
  · rename_i hst
    exact absurd hst h2
  · obtain rfl := Option.some.inj h
    exact same

end

section
variable {K : RteCksum}

def BouncesOff (k : Core) (env : Env) (p : Packet) : Prop :=
  ∃ s c, rxSegment k.tcp.nic env.pad p = some s ∧ k.conn s.q = some c ∧ c.Bounces s

theorem handleTcpListen_weight {env : Env} {k : Core} {s : Seg} {r : Option Connection × Out}
    (h : handleTcpListen K env k.tcp s = some r) :
    (r.1 = none ∧ r.2.frames = []) ∨
      ∃ c, r.1 = some c ∧ c.tcpState = .synRecv ∧ 1 + framesWeight r.2.frames < s.weight := by
  rcases handleTcpListen_cases h with ⟨-, rfl⟩ | ⟨g, frames, hf, -, hp, rfl⟩
  · exact Or.inl ⟨rfl, rfl⟩
  · refine Or.inr ⟨_, rfl, sent_tcpState .., ?_⟩
    have := (sendP_weight hp synAck_ne_syn).1
    have hw : s.weight = 4 := segWeight_syn s.size hf
    show 1 + framesWeight frames < _
    omega

theorem rxDispatch_weight {env : Env} {k k' : Core} {s : Seg} {out : Out}
    (h : rxDispatch K env k s = some (k', out))
    (hb : ∀ c, k.conn s.q = some c → ¬c.Bounces s ∧ c.tcpState ≠ .finWait2) :
    k'.load + framesWeight out.frames < k.load + s.weight := by
  have hpos : 1 ≤ s.weight := segWeight_pos ..
  have switched : ∀ {p c r}, k.tcp.rteHash.lookup s.q = some p → k.heap.read p = some c →
      rxSwitch K env k.tcp c s = some r →
      r.conn.tcpState.pending + framesWeight r.out.frames < c.tcpState.pending + s.weight := by
    intro p c r hl hr hsw
    obtain ⟨hnb, h2⟩ := hb c (conn_of_lookup hl hr)
    exact rxSwitch_weight hsw hnb h2
  cases rxDispatch_some h with
  | ignored _ hL =>
    rcases handleTcpListen_weight hL with ⟨-, hf⟩ | ⟨c, hc, -⟩
    · rw [show out.frames = [] from hf]
      show _ + 0 < _
      omega
    · cases hc
  | @opened c _ _ hL =>
    rcases handleTcpListen_weight hL with ⟨hc, -⟩ | ⟨d, hc, hst, hw⟩
    · cases hc
    · obtain rfl := Option.some.inj hc
      have hsum := Store.Heap.sum_alloc (f := fun c : Connection => c.tcpState.pending) (h := k.heap)
        (a := c)
      rw [hst] at hsum
      show (k.heap.alloc c).sum _ + _ < k.heap.sum _ + _
      change _ = _ + 1 at hsum
      change 1 + framesWeight out.frames < _ at hw
      omega
  | @freed p c r hl hr hsw _ =>
    have hw := switched hl hr hsw
    have hsum := Store.Heap.sum_free (f := fun c : Connection => c.tcpState.pending) hr
    show (k.heap.free p).sum _ + _ < k.heap.sum _ + _
    omega
  | @handled p c r hl hr hsw _ =>
    have hw := switched hl hr hsw
    have hsum := Store.Heap.sum_write (f := fun c : Connection => c.tcpState.pending) (b := r.conn) hr
    show (k.heap.write p r.conn).sum _ + _ < k.heap.sum _ + _
    omega

theorem deliver_weight {tr : List (machine K).Event} {k : Core} {env : Env} {p : Packet} {k' : Core}
    {out : Out} (hr : Machine.Run tr k) (hb : ¬BouncesOff k env p)
    (h : (machine K).step k ((link K).recv env p) = some (k', out)) :
    k'.load + (((link K).emit out).map Packet.weight).sum < k.load + p.weight := by
  change tcpRxPacket K env k p = some (k', out) at h
  show _ + framesWeight out.frames < _
  unfold tcpRxPacket at h
  split at h
  · cases h
    have := segWeight_pos p.tcp (rxSize p.ipv4 p.tcp)
    show _ + 0 < _ + segWeight _ _
    omega
  · rename_i s hs
    have hweight : s.weight = p.weight := by
      obtain ⟨-, rfl⟩ := rxSegment_some hs
      rfl
    rw [← hweight]
    refine rxDispatch_weight h fun c hc => ⟨fun hbounce => hb ⟨s, c, hs, hc, hbounce⟩, ?_⟩
    exact run_not_finWait2 hr _ c hc

/-- Among any finite number of instances, from any states they can reach and with
any segments in flight, a finite number of commands and injected segments: the
exchange ends exactly if it takes only finitely many of the two bad answers. -/
theorem exchange_finite_iff {ι : Type} [DecidableEq ι] [Fintype ι]
    {x : Network.Exchange ι Core Input Env Packet} (h0 : Network.Reached (machine K) (x.net 0)) :
    {n | x.Takes (link K) n}.Finite ↔ {n | x.Takes (link K) n ∧ x.IsBad BouncesOff n}.Finite :=
  Network.Exchange.finite_iff (fun _ _ _ _ _ _ hr hb hs => deliver_weight hr hb hs) h0

end

/-! ## Two hosts that connect to each other -/

def Connection.Faces (c : Connection) (q : Quad) : Prop :=
  c.rteTcpHdr.srcPort = q.dport ∧ c.rteTcpHdr.dstPort = q.sport ∧
    c.rteIpv4Hdr.srcAddr = q.dip ∧ c.rteIpv4Hdr.dstAddr = q.sip

instance (c : Connection) (q : Quad) : Decidable (c.Faces q) := inferInstanceAs (Decidable (_ ∧ _))

def Waiting (nic : Nic) (q : Quad) (k : Core) : Prop :=
  k.tcp.nic = nic ∧ ∃ c ∈ k.conn q, c.tcpState = .synSent ∧ c.Faces q

instance (nic : Nic) (q : Quad) (k : Core) : Decidable (Waiting nic q k) :=
  inferInstanceAs (Decidable (_ ∧ _))

/-- An empty segment of the flow that acknowledges one number too many. -/
def Probe (nic : Nic) (q : Quad) (p : Packet) : Prop :=
  ∃ s ∈ rxSegment nic 0 p, s.q = q ∧ s.size = 0 ∧ s.seq = iss + 1 ∧ s.ackn = iss + 2

instance (nic : Nic) (q : Quad) (p : Packet) : Decidable (Probe nic q p) :=
  inferInstanceAs (Decidable (∃ s ∈ rxSegment nic 0 p, _))

structure Mirror (nic nic' : Nic) (q q' : Quad) : Prop where
  mac : nic.dstMac = nic'.mac
  ip : q.sip = nic'.ip
  quad : q' = ⟨q.dip, q.dport, q.sip, q.sport, 0⟩

section
variable {K : RteCksum} {nic nic' : Nic} {q q' : Quad}

theorem txFlag_faces {c : Connection} (flag : Byte) (h : c.Faces q) : (txFlag flag c).Faces q := by
  unfold txFlag
  split
  · exact h
  · exact h

theorem sent_faces {c : Connection} (n : BitVec 64) (h : c.Faces q) : (c.sent K n).Faces q :=
  txFlag_faces _ (txFlag_faces _ h)

theorem probe_answer (hm : Mirror nic nic' q q') {t : Tcp} (ht : t.nic = nic) {c : Connection}
    (hc : c.Faces q) (hnxt : c.sendSequenceSpace.nxt = iss + 1) {s : Seg} (hseq : s.seq = iss + 1) :
    Probe nic' q' (txFrame t (txHeaders K (c.synAnswered s) 0) s.data 0).packet := by
  obtain ⟨hsp, hdp, hsa, hda⟩ := hc
  have hmac : t.nic.dstMac = nic'.mac := by rw [ht, hm.mac]
  have hip : nic'.ip = c.rteIpv4Hdr.dstAddr := by rw [hda, hm.ip]
  refine ⟨_, rxSegment_accepts hmac rfl hip rfl, ?_, rxSize_empty, ?_, ?_⟩
  · show Quad.mk c.rteIpv4Hdr.srcAddr c.rteTcpHdr.srcPort c.rteIpv4Hdr.dstAddr c.rteTcpHdr.dstPort 0 = q'
    rw [hm.quad, hsp, hdp, hsa, hda]
  · show rteBeToCpu32 (rteCpuToBe32 c.sendSequenceSpace.nxt) = _
    rw [rteBeToCpu32_rteCpuToBe32, hnxt]
  · show rteBeToCpu32 (rteCpuToBe32 (s.seq + 1)) = _
    rw [rteBeToCpu32_rteCpuToBe32, hseq]
    rfl

-- the segment does not acknowledge the SYN, and is answered all the same
theorem synSent_bounces (env : Env) (t : Tcp) {c : Connection} {s : Seg} (hst : c.tcpState = .synSent)
    (ha : ackCheck c s.ackn = false) (hsize : s.size = 0) :
    ∃ frames, sendP env t (txHeaders K (c.synAnswered s) 0) s.data 0 = some frames ∧
      rxSwitch K env t c s = some ⟨t, (c.synAnswered s).sent K 0, { frames }⟩ := by
  obtain ⟨frames, htx⟩ := tcpTxPackets_empty K env t (c.synAnswered s) s.data
  refine ⟨frames, (tcpTxPackets_some htx).2, ?_⟩
  have hz : sizeT s.size = 0 := by rw [hsize]; rfl
  have ha : ackCheck { c with receiveSequenceSpace.nxt := s.seq } s.ackn = false := ha
  unfold rxSwitch
  rw [hst]
  simp only [handleTcpSynSent, segmentCheck_self, ha, hz, ite_true, Bool.false_eq_true, ite_false]
  show (tcpTxPackets K env t (c.synAnswered s) s.data 0).map _ = _
  rw [htx]
  rfl

theorem probe_answered (hm : Mirror nic nic' q q') {tr : List (machine K).Event} {k : Core}
    (hr : Machine.Run tr k) (hw : Waiting nic q k) {p : Packet} (hp : Probe nic q p) :
    ∃ k' out p', (machine K).step k ((link K).recv calm p) = some (k', out) ∧ Waiting nic q k' ∧
      (link K).emit out = [p'] ∧ Probe nic' q' p' := by
  obtain ⟨hnic, c, hc, hst, hfaces⟩ := hw
  obtain ⟨s, hs, rfl, hsize, hseq, hackn⟩ := hp
  have hsyn := run_synOut hr s.q c hc
  have hopen : c.Opening := Or.inl hst
  have hack : ackCheck c s.ackn = false := by
    rw [← Bool.not_eq_true, ackCheck_synOut hsyn hopen, hackn]
    decide
  obtain ⟨ptr, hl, hread⟩ := Option.bind_eq_some_iff.mp hc
  obtain ⟨frames, hsend, hsw⟩ := synSent_bounces (K := K) calm k.tcp hst hack hsize
  have hframes : frames = [txFrame k.tcp (txHeaders K (c.synAnswered s) 0) s.data 0] := by
    rcases sendP_some hsend with ⟨-, hno⟩ | ⟨hf, -, -⟩
    · cases hno
    · exact hf
  have hkey : c.q = s.q := (run_rep hr).key hc
  have htouch := touch_write (run_rep hr) hl hread k.tcp.stats
    (show ((c.synAnswered s).sent K 0).q = s.q from (sent_q ..).trans hkey)
  have hprobe := probe_answer (K := K) hm hnic hfaces (hsyn hopen).2 hseq
  refine ⟨_, { frames }, _, ?_, ⟨htouch.nic.trans hnic, _, htouch.at_key, ?_, ?_⟩, ?_, hprobe⟩
  · show tcpRxPacket K calm k p = _
    unfold tcpRxPacket rxDispatch
    rw [hnic, show rxSegment nic calm.pad p = some s from hs]
    simp only [hl, hread, hsw, Option.map_some]
    rw [if_neg (by rw [hst]; decide)]
  · rw [sent_tcpState]
    exact hst
  · exact sent_faces 0 hfaces
  · show frames.map Frame.packet = _
    rw [hframes]
    rfl

end

def hostQuad : Quad := ⟨hostNic.ip, hostPort, peerNic.ip, peerPort, 0⟩

def nicOf (b : Bool) : Nic := if b then peerNic else hostNic

def quadOf (b : Bool) : Quad := if b then hostQuad else peerQuad

theorem mirror_of (b : Bool) : Mirror (nicOf b) (nicOf !b) (quadOf b) (quadOf !b) := by
  cases b with
  | false => exact ⟨by decide, by decide, by decide⟩
  | true => exact ⟨by decide, by decide, by decide⟩

/-- Both wait for their SYN to be acknowledged, and one has a probe to answer. -/
structure PingPong (n : Network.Net Bool Core Packet) : Prop where
  reached : Network.Reached (machine rfcCksum) n
  waiting : ∀ b, Waiting (nicOf b) (quadOf b) (n.nodes b)
  probe : ∃ b, ∃ p ∈ n.flight, Probe (nicOf b) (quadOf b) p

theorem pingPong_step {n : Network.Net Bool Core Packet} (h : PingPong n) :
    ∃ l n', Network.Fires (link rfcCksum) n l n' ∧ PingPong n' := by
  obtain ⟨nodes, flight, budget⟩ := n
  obtain ⟨b, p, hp, hprobe⟩ := h.probe
  obtain ⟨l₁, l₂, hfl⟩ := List.append_of_mem hp
  obtain ⟨tr, hr⟩ := h.reached b
  obtain ⟨k', out, p', hstep, hw, hemit, hprobe'⟩ :=
    probe_answered (mirror_of b) hr (h.waiting b) hprobe
  have hfire : Network.Fires (link rfcCksum) ⟨nodes, flight, budget⟩ (.deliver b calm p)
      ⟨Function.update nodes b k', l₁ ++ l₂ ++ (link rfcCksum).emit out, budget⟩ :=
    .deliver hfl hstep
  refine ⟨_, _, hfire, hfire.reached h.reached, fun b' => ?_, !b, p', ?_, hprobe'⟩
  · by_cases hb : b' = b
    · subst hb
      show Waiting _ _ (Function.update nodes b' k' b')
      rw [Function.update_self]
      exact hw
    · show Waiting _ _ (Function.update nodes b k' b')
      rw [Function.update_of_ne hb]
      exact h.waiting b'
  · rw [hemit]
    exact List.mem_append_right _ (List.mem_singleton_self _)

def twoHosts : Network.Net Bool Core Packet where
  nodes b := initializeTcp (nicOf b) 0
  flight := []
  budget := 3

def peerConnect : Input := ⟨.connect hostNic.ip hostPort peerPort, calm⟩

theorem twoHosts_endless : Network.Exchange.Endless (link rfcCksum) twoHosts := by
  -- the peer connects, and the host connects and gets the segment
  obtain ⟨⟨tr₂, s₂⟩, hr₂, hQ₂⟩ := (Option.any_eq_true ..).mp
    (show ((machine rfcCksum).replay (initializeTcp peerNic 0) [peerConnect]).any
      (fun r => Waiting peerNic hostQuad r.2) = true by decide +kernel)
  obtain ⟨⟨tr₁, s₁⟩, hr₁, hQ₁⟩ := (Option.any_eq_true ..).mp
    (show ((machine rfcCksum).replay (initializeTcp hostNic 0)
        [userConnect, recv rteTcpAckFlag (iss + 1) (iss + 2) []]).any
      (fun r => Waiting hostNic peerQuad r.2 ∧
        ∃ e ∈ r.1, ∃ f ∈ e.out.frames, Probe peerNic hostQuad f.packet) = true by decide +kernel)
  obtain ⟨hw₁, e, he, f, hf, hprobe⟩ := of_decide_eq_true hQ₁
  have hw₂ := of_decide_eq_true hQ₂
  have hp₁ := Machine.replay_path hr₁
  have hp₂ := Machine.replay_path hr₂
  have hl₁ : tr₁.length = 2 := by
    simpa using congrArg List.length (Machine.replay_inputs hr₁)
  have hl₂ : tr₂.length = 1 := by
    simpa using congrArg List.length (Machine.replay_inputs hr₂)
  have hbudget : 3 = 0 + tr₁.length + tr₂.length := by rw [hl₁, hl₂]
  unfold twoHosts
  rw [hbudget]
  refine Network.Exchange.Endless.acts (i := true) hp₂
    (Network.Exchange.Endless.acts (i := false) (s := s₁) ?_ ?_)
  · exact hp₁
  · refine Network.Exchange.endless_of_closed (fun n => pingPong_step) ⟨fun b => ?_, fun b => ?_, ?_⟩
    · cases b with
      | false => exact ⟨tr₁, _, ⟨hostNic, 0, rfl⟩, hp₁⟩
      | true => exact ⟨tr₂, _, ⟨peerNic, 0, rfl⟩, hp₂⟩
    · cases b with
      | false => exact hw₁
      | true => exact hw₂
    · refine ⟨true, f.packet, List.mem_append_right _ ?_, hprobe⟩
      exact List.mem_flatMap.mpr ⟨e, he, List.mem_map_of_mem hf⟩

theorem exchange_finite_iff_twoHosts : ∃ x : Network.Exchange Bool Core Input Env Packet,
    x.net 0 = twoHosts ∧ (∀ n, x.Takes (link rfcCksum) n) ∧
      ({n | x.Takes (link rfcCksum) n}.Finite ↔
        {n | x.Takes (link rfcCksum) n ∧ x.IsBad BouncesOff n}.Finite) := by
  obtain ⟨x, h0, hx⟩ := twoHosts_endless
  refine ⟨x, h0, hx, exchange_finite_iff fun b => ?_⟩
  rw [h0]
  exact ⟨[], _, ⟨nicOf b, 0, rfl⟩, rfl⟩

/-- Two hosts in their first state, nothing in flight, and three inputs from
outside: the exchange need not end. -/
theorem not_exchange_finite : ¬∀ x : Network.Exchange Bool Core Input Env Packet,
    (∀ b, (machine rfcCksum).init ((x.net 0).nodes b)) →
    ((x.net 0).nodes false).tcp.nic.ip ≠ ((x.net 0).nodes true).tcp.nic.ip →
    (x.net 0).flight = [] → {n | x.Takes (link rfcCksum) n}.Finite := by
  intro h
  obtain ⟨x, h0, hx⟩ := twoHosts_endless
  have hall : {n | x.Takes (link rfcCksum) n} = Set.univ := Set.eq_univ_of_forall hx
  have hfin := h x (fun b => by rw [h0]; exact ⟨nicOf b, 0, rfl⟩) (by rw [h0]; decide) (by rw [h0]; rfl)
  rw [hall] at hfin
  exact Set.infinite_univ hfin

end TcpDpdk

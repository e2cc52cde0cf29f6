import TcpDpdk.Handshake
import TcpDpdk.Numbering

/-!
# Passive open

A SYN that is repeated falls just outside the window its first copy opened, on the
other side. TCP_SYN_RECV answers it by taking `snd.nxt` back, raising SYN again and
sending, which puts both where they were: the connection waits as before.
-/

namespace TcpDpdk

/-- `p` reaches the handler of the connection `q` as the segment `s`, which has no payload. -/
structure Bare (nic : Nic) (q : Quad) (p : Packet) (flags : Byte) (seq : BitVec 32) (s : Seg) :
    Prop where
  passes : rxSegment nic q.pad p = some s
  key : s.q = q
  flags : s.tcpHdr.tcpFlags = flags
  seq : s.seq = seq
  empty : s.size = 0

structure Connection.Waiting (c : Connection) (irs : BitVec 32) : Prop where
  state : c.tcpState = .synRecv
  una : c.sendSequenceSpace.una = iss
  nxt : c.sendSequenceSpace.nxt = iss + 1
  rcvNxt : c.receiveSequenceSpace.nxt = irs + 1
  flags : c.rteTcpHdr.tcpFlags = rteTcpAckFlag

structure Frame.AnswersSyn (f : Frame) (irs : BitVec 32) : Prop where
  flags : f.tcp.tcpFlags = rteTcpSynFlag ||| rteTcpAckFlag
  seq : f.seq = iss
  ack : f.ack = irs + 1
  payload : f.payload = []

section
variable {K : RteCksum} {env : Env} {t : Tcp}

theorem tcpTxPackets_bare (hm : env.mbuf = true) (c : Connection) (data : Mem) :
    tcpTxPackets K env t c data 0 =
      some (c.sent K 0, [txFrame t (txHeaders K c 0) data 0]) := by
  have hs : sendP env t (txHeaders K c 0) data 0 = some [txFrame t (txHeaders K c 0) data 0] := by
    unfold sendP
    rw [if_neg (by rw [hm]; decide), if_neg (by decide)]
  simp only [tcpTxPackets, hs, Option.map_some]
  rfl

theorem txFlag_mask (flag : Byte) (c : Connection) :
    (txFlag flag c).rteTcpHdr.tcpFlags = c.rteTcpHdr.tcpFlags &&& ~~~flag := by
  rw [txFlag_tcpFlags]
  split
  · rfl
  · rename_i h
    rw [Bool.not_eq_true, TcpHdr.has_eq_false] at h
    have hx : c.rteTcpHdr.tcpFlags = (c.rteTcpHdr.tcpFlags &&& flag) |||
        (c.rteTcpHdr.tcpFlags &&& ~~~flag) := by
      rw [← BitVec.and_or_distrib_left, BitVec.or_not_self, BitVec.and_allOnes]
    rw [h] at hx
    exact hx.trans BitVec.zero_or

theorem sent_tcpFlags (c : Connection) (n : BitVec 64) : (c.sent K n).rteTcpHdr.tcpFlags =
    c.rteTcpHdr.tcpFlags &&& ~~~rteTcpSynFlag &&& ~~~rteTcpFinFlag := by
  unfold Connection.sent
  rw [txFlag_mask, txFlag_mask]
  rfl

theorem answersSyn {c : Connection} {data : Mem} {irs : BitVec 32}
    (hf : c.rteTcpHdr.tcpFlags = rteTcpSynFlag ||| rteTcpAckFlag)
    (hn : c.sendSequenceSpace.nxt = iss) (hr : c.receiveSequenceSpace.nxt = irs + 1) :
    (txFrame t (txHeaders K c 0) data 0).AnswersSyn irs where
  flags := hf
  seq := (rteBeToCpu32_rteCpuToBe32 _).trans hn
  ack := (rteBeToCpu32_rteCpuToBe32 _).trans hr
  payload := rfl

theorem waiting_sent {c : Connection} {irs : BitVec 32} (hst : c.tcpState = .synRecv)
    (hf : c.rteTcpHdr.tcpFlags = rteTcpSynFlag ||| rteTcpAckFlag)
    (hu : c.sendSequenceSpace.una = iss) (hn : c.sendSequenceSpace.nxt = iss)
    (hr : c.receiveSequenceSpace.nxt = irs + 1) : (c.sent K 0).Waiting irs where
  state := (sent_tcpState ..).trans hst
  una := (sent_una ..).trans hu
  nxt := by rw [sent_nxt_flags hf (by decide), hn]
  rcvNxt := by rw [sent_receiveSequenceSpace, hr]
  flags := by rw [sent_tcpFlags, hf]; decide

/-! ## The three steps -/

theorem listen_answers {s : Seg} {g : Connection} (hf : s.tcpHdr.tcpFlags = rteTcpSynFlag)
    (h0 : s.size = 0) (hobj : env.object = some g) (hm : env.mbuf = true) :
    ∃ c f, handleTcpListen K env t s = some (some c, { frames := [f] }) ∧ c.Waiting s.seq ∧
      f.AnswersSyn s.seq := by
  refine ⟨(listenConnection g s).sent K 0, txFrame t (txHeaders K (listenConnection g s) 0) s.data 0,
    ?_, waiting_sent rfl rfl rfl rfl rfl, answersSyn rfl rfl rfl⟩
  have hsize : sizeT s.size = 0 := by rw [h0]; rfl
  unfold handleTcpListen
  rw [if_neg (not_not.mpr hf), hobj]
  simp only [hsize, tcpTxPackets_bare hm, Option.map_some]

/-- The first number of the window is the one after the SYN, which is as far from it
as can be. -/
theorem segmentCheck_syn {c : Connection} {irs : BitVec 32}
    (hr : c.receiveSequenceSpace.nxt = irs + 1) : segmentCheck c 0 irs = false := by
  have hfar : Circle.fwd (irs + 1) irs = 2 ^ 32 - 1 := by
    unfold Circle.fwd
    rw [show irs - (irs + 1) = -1 by ring]
    rfl
  have hw := c.receiveSequenceSpace.wnd.isLt
  rw [← Bool.not_eq_true, segmentCheck_empty, hr]
  intro h
  rcases h with h | h
  · rw [← h, Circle.fwd_self] at hfar
    cases hfar
  · omega

theorem synRecv_answers {c : Connection} {s : Seg} (hc : c.Waiting s.seq)
    (hf : s.tcpHdr.tcpFlags = rteTcpSynFlag) (h0 : s.size = 0) (hm : env.mbuf = true) :
    ∃ d f, handleTcpSynRecv K env t c s = some ⟨t, d, { frames := [f] }⟩ ∧ d.Waiting s.seq ∧
      f.AnswersSyn s.seq := by
  have hflags : c.unsent.rteTcpHdr.tcpFlags = rteTcpSynFlag ||| rteTcpAckFlag := by
    show c.rteTcpHdr.tcpFlags ||| rteTcpSynFlag = _
    rw [hc.flags]
    rfl
  have hnxt : c.unsent.sendSequenceSpace.nxt = iss := by
    show c.sendSequenceSpace.nxt - 1 = _
    rw [hc.nxt]
    exact add_sub_cancel_right ..
  refine ⟨c.unsent.sent K 0, txFrame t (txHeaders K c.unsent 0) s.data 0, ?_,
    waiting_sent hc.state hflags hc.una hnxt hc.rcvNxt, answersSyn hflags hnxt hc.rcvNxt⟩
  have hsize : sizeT s.size = 0 := by rw [h0]; rfl
  have hsyn : s.tcpHdr.has rteTcpSynFlag = true := by unfold TcpHdr.has; rw [hf]; decide
  unfold handleTcpSynRecv
  rw [if_pos (by rw [h0]; exact segmentCheck_syn hc.rcvNxt), if_pos hsyn]
  simp only [hsize, tcpTxPackets_bare hm, Option.map_some]

variable (env t) in
theorem synRecv_establishes {c : Connection} {s : Seg} {irs : BitVec 32} (hc : c.Waiting irs)
    (h0 : s.size = 0) (hseq : s.seq = irs + 1) (ha : s.ackn = iss + 1) :
    ∃ stats, handleTcpSynRecv K env t c s =
        some ⟨{ t with stats }, { c with tcpState := .established }, {}⟩ ∧
      stats.connectionCount = t.stats.connectionCount + 1 := by
  have hsc : segmentCheck c s.size s.seq = true := by
    rw [h0]
    exact segmentCheck_self (hc.rcvNxt.trans hseq.symm)
  have hack : ackCheck c s.ackn = true :=
    (ackCheck_synOut (fun _ => ⟨hc.una, hc.nxt⟩) (Or.inr hc.state) _).mpr (Or.inr ha)
  unfold handleTcpSynRecv
  rw [if_neg (by rw [hsc]; decide), if_pos hack]
  refine ⟨_, rfl, ?_⟩
  split <;> rfl

end

/-! ## The core -/

def Core.Waits (k : Core) (q : Quad) (irs : BitVec 32) : Prop :=
  ∃ p c, k.tcp.rteHash.lookup q = some p ∧ k.heap.read p = some c ∧ c.Waiting irs

section
variable {K : RteCksum} {k : Core} {q : Quad} {p : Packet} {s : Seg} {flags : Byte}
  {seq : BitVec 32} {env : Env}

theorem step_bare (hb : Bare k.tcp.nic q p flags seq s) (hpad : env.pad = q.pad) :
    step K k ⟨.rx p, env⟩ = rxDispatch K env k s := by
  simp only [step, tcpRxPacket, hpad, hb.passes]

theorem step_listen (hb : Bare k.tcp.nic q p rteTcpSynFlag seq s) (hpad : env.pad = q.pad)
    (hl : k.tcp.rteHash.lookup q = none) (hroom : k.tcp.rteHash.Room q) {g : Connection}
    (hobj : env.object = some g) (hm : env.mbuf = true) :
    ∃ k' f, step K k ⟨.rx p, env⟩ = some (k', { frames := [f] }) ∧ k'.tcp.nic = k.tcp.nic ∧
      k'.Waits q seq ∧ f.AnswersSyn seq := by
  obtain ⟨c, f, hc, hw, hf⟩ := listen_answers (K := K) (t := k.tcp) hb.flags hb.empty hobj hm
  rw [hb.seq] at hw hf
  refine ⟨⟨{ k.tcp with rteHash := k.tcp.rteHash.add q k.heap.next }, k.heap.alloc c⟩, f, ?_, rfl,
    ⟨k.heap.next, c, Store.Table.lookup_add hroom, Store.Heap.read_alloc .., hw⟩, hf⟩
  rw [step_bare hb hpad]
  unfold rxDispatch
  rw [hb.key]
  simp only [hl, hc, Option.map_some]

theorem step_synAgain (hb : Bare k.tcp.nic q p rteTcpSynFlag seq s) (hpad : env.pad = q.pad)
    (hk : k.Waits q seq) (hm : env.mbuf = true) :
    ∃ k' f, step K k ⟨.rx p, env⟩ = some (k', { frames := [f] }) ∧ k'.tcp.nic = k.tcp.nic ∧
      k'.Waits q seq ∧ f.AnswersSyn seq := by
  obtain ⟨x, c, hl, hr, hc⟩ := hk
  rw [← hb.seq] at hc
  obtain ⟨d, f, hd, hw, hf⟩ := synRecv_answers (K := K) (t := k.tcp) hc hb.flags hb.empty hm
  rw [hb.seq] at hw hf
  refine ⟨⟨k.tcp, k.heap.write x d⟩, f, ?_, rfl, ⟨x, d, hl, Store.Heap.read_write hr, hw⟩, hf⟩
  have hne : c.tcpState ≠ .lastAck := by rw [hc.state]; decide
  rw [step_bare hb hpad]
  unfold rxDispatch rxSwitch
  rw [hb.key]
  simp only [hl, hr, hc.state, hd, Option.map_some, reduceCtorEq, ite_false]

theorem step_establishes {irs : BitVec 32} (hb : Bare k.tcp.nic q p flags (irs + 1) s)
    (ha : s.ackn = iss + 1) (hpad : env.pad = q.pad) (hk : k.Waits q irs) :
    ∃ k' c, step K k ⟨.rx p, env⟩ = some (k', {}) ∧ k'.conn q = some c ∧
      c.tcpState = .established ∧ c.sendSequenceSpace.nxt = iss + 1 ∧
      c.receiveSequenceSpace.nxt = irs + 1 ∧
      k'.tcp.stats.connectionCount = k.tcp.stats.connectionCount + 1 := by
  obtain ⟨x, c, hl, hr, hc⟩ := hk
  obtain ⟨stats, hd, hcount⟩ := synRecv_establishes (K := K) env k.tcp hc hb.empty hb.seq ha
  refine ⟨⟨{ k.tcp with stats }, k.heap.write x { c with tcpState := .established }⟩, _, ?_,
    conn_of_lookup hl (Store.Heap.read_write hr), rfl, hc.nxt, hc.rcvNxt, hcount⟩
  rw [step_bare hb hpad]
  unfold rxDispatch rxSwitch
  rw [hb.key]
  simp only [hl, hr, hc.state, hd, Option.map_some, reduceCtorEq, ite_false]

theorem replay_frame {i : Input} {f : Frame} {is : List Input} {k₁ k' : Core}
    {xs : List (machine K).Event} (hstep : step K k i = some (k₁, { frames := [f] }))
    (hrep : (machine K).replay k₁ is = some (xs, k')) :
    ∃ e : (machine K).Event, (machine K).replay k (i :: is) = some (e :: xs, k') ∧
      (e :: xs).flatMap (·.out.frames) = f :: xs.flatMap (·.out.frames) := by
  have hstep : (machine K).step k i = some (k₁, { frames := [f] }) := hstep
  obtain ⟨e, he, hcons⟩ := Machine.replay_cons hstep hrep
  refine ⟨e, hcons, ?_⟩
  rw [List.flatMap_cons, he]
  rfl

theorem replay_synAgain {envs : List Env} (hb : Bare k.tcp.nic q p rteTcpSynFlag seq s)
    (henv : ∀ x ∈ envs, x.pad = q.pad ∧ x.mbuf = true) (hk : k.Waits q seq) :
    ∃ (xs : List (machine K).Event) (k' : Core),
      (machine K).replay k (envs.map fun x => ⟨.rx p, x⟩) = some (xs, k') ∧
      k'.tcp.nic = k.tcp.nic ∧ k'.Waits q seq ∧
      (xs.flatMap (·.out.frames)).length = envs.length ∧
      ∀ f ∈ xs.flatMap (·.out.frames), f.AnswersSyn seq := by
  induction envs generalizing k with
  | nil => exact ⟨[], k, rfl, rfl, hk, rfl, fun f hf => nomatch hf⟩
  | cons env envs ih =>
    obtain ⟨hpad, hm⟩ := henv env (List.mem_cons_self ..)
    obtain ⟨k₁, f, hstep, hnic, hk₁, hf⟩ := step_synAgain hb hpad hk hm
    obtain ⟨xs, k', hrep, hnic', hk', hlen, hall⟩ := ih (hnic ▸ hb)
      (fun x hx => henv x (List.mem_cons_of_mem _ hx)) hk₁
    obtain ⟨e, hcons, hframes⟩ := replay_frame hstep hrep
    refine ⟨e :: xs, k', hcons, hnic'.trans hnic, hk', ?_, ?_⟩
    · rw [hframes, List.length_cons, hlen, List.length_cons]
    · rw [hframes]
      exact List.forall_mem_cons.mpr ⟨hf, hall⟩

/-- What DPDK has to give: memory for the connection, a place in the table, a buffer
for each answer. The gaps of the key are the same each time. -/
structure Supplied (k : Core) (q : Quad) (env : Env) (envs : List Env) : Prop where
  object : env.object ≠ none
  room : k.tcp.rteHash.Room q
  gaps : ∀ x ∈ env :: envs, x.pad = q.pad
  buffers : ∀ x ∈ env :: envs, x.mbuf = true

/-- From any state a core can reach: a SYN for an unknown quad and then any number of
copies of it make one connection, which waits with `snd.nxt` one ahead, and each is
answered alike. The acknowledgment establishes the connection and counts it once. -/
theorem passive_open {tr : List (machine K).Event} (h : Machine.Run tr k) {irs : BitVec 32}
    (hb : Bare k.tcp.nic q p rteTcpSynFlag irs s) (hnew : k.conn q = none) {envs : List Env}
    (hsup : Supplied k q env envs) :
    ∃ (xs : List (machine K).Event) (k' : Core) (c : Connection),
      (machine K).replay k ((env :: envs).map fun x => ⟨.rx p, x⟩) = some (xs, k') ∧
      k'.conn q = some c ∧ c.tcpState = .synRecv ∧ c.sendSequenceSpace.nxt = iss + 1 ∧
      c.receiveSequenceSpace.nxt = irs + 1 ∧
      (xs.flatMap (·.out.frames)).length = envs.length + 1 ∧
      (∀ f ∈ xs.flatMap (·.out.frames), f.AnswersSyn irs) ∧
      ∀ pa sa x, Bare k.tcp.nic q pa rteTcpAckFlag (irs + 1) sa → sa.ackn = iss + 1 →
        x.pad = q.pad →
        ∃ k'' c', step K k' ⟨.rx pa, x⟩ = some (k'', {}) ∧ k''.conn q = some c' ∧
          c'.tcpState = .established ∧
          c'.sendSequenceSpace.nxt = c.sendSequenceSpace.nxt ∧
          c'.receiveSequenceSpace.nxt = c.receiveSequenceSpace.nxt ∧
          k''.tcp.stats.connectionCount = k'.tcp.stats.connectionCount + 1 := by
  have hl := lookup_of_conn_none (run_rep h) hnew
  obtain ⟨g, hobj⟩ := Option.ne_none_iff_exists'.mp hsup.object
  obtain ⟨k₁, f, hstep, hnic₁, hk₁, hf⟩ := step_listen (K := K) hb
    (hsup.gaps env (List.mem_cons_self ..)) hl hsup.room hobj
    (hsup.buffers env (List.mem_cons_self ..))
  have henvs : ∀ x ∈ envs, x.pad = q.pad ∧ x.mbuf = true := fun x hx =>
    ⟨hsup.gaps x (List.mem_cons_of_mem _ hx), hsup.buffers x (List.mem_cons_of_mem _ hx)⟩
  obtain ⟨xs, k', hrep, hnic, hk', hlen, hall⟩ := replay_synAgain (hnic₁ ▸ hb) henvs hk₁
  obtain ⟨e, hcons, hframes⟩ := replay_frame hstep hrep
  obtain ⟨x, c, hlk, hrd, hc⟩ := id hk'
  refine ⟨e :: xs, k', c, hcons, conn_of_lookup hlk hrd, hc.state, hc.nxt, hc.rcvNxt, ?_, ?_, ?_⟩
  · rw [hframes, List.length_cons, hlen]
  · rw [hframes]
    exact List.forall_mem_cons.mpr ⟨hf, hall⟩
  · intro pa sa x hba hack hpad
    rw [← hnic₁, ← hnic] at hba
    obtain ⟨k'', c', hst, hc', hest, hn, hr, hcount⟩ := step_establishes hba hack hpad hk'
    exact ⟨k'', c', hst, hc', hest, hn.trans hc.nxt.symm, hr.trans hc.rcvNxt.symm, hcount⟩

end

/-! ## On the host -/

theorem peer_bare (flags : Byte) (seq ackn : BitVec 32) :
    ∃ s, Bare hostNic peerQuad (peerPacket flags seq ackn []) flags seq s ∧ s.ackn = ackn := by
  have hsize : rxSize (peerPacket flags seq ackn []).ipv4 (peerPacket flags seq ackn []).tcp = 0 := by
    show ((rteBeToCpu16 (rteCpuToBe16 40)).setWidth 64 - 20#64 -
      ((5#8 <<< 4) >>> 4 <<< 2).setWidth 64).setWidth 32 = 0
    decide
  exact ⟨_, ⟨rxSegment_accepts rfl rfl rfl rfl, rfl, rfl, rteBeToCpu32_rteCpuToBe32 _, hsize⟩,
    rteBeToCpu32_rteCpuToBe32 _⟩

theorem passive_open_again : ∃ (xs : List (machine rfcCksum).Event) (k' : Core) (c : Connection),
    (machine rfcCksum).replay host ([calm, calm, calm].map fun x =>
      ⟨.rx (peerPacket rteTcpSynFlag 0xffffffff 0 []), x⟩) = some (xs, k') ∧
    k'.conn peerQuad = some c ∧ c.receiveSequenceSpace.nxt = 0 ∧
    (xs.flatMap (·.out.frames)).length = 3 ∧
    ∃ k'' c', step rfcCksum k' (recv rteTcpAckFlag 0 1 []) = some (k'', {}) ∧
      k''.conn peerQuad = some c' ∧ c'.tcpState = .established := by
  obtain ⟨s, hb, -⟩ := peer_bare rteTcpSynFlag 0xffffffff 0
  have hsup : Supplied host peerQuad calm [calm, calm] := {
    object := Option.some_ne_none zeroed
    room := by decide
    gaps := by decide
    buffers := by decide }
  obtain ⟨xs, k', c, hrep, hc, -, -, hr, hlen, -, hack⟩ :=
    passive_open (K := rfcCksum) (Machine.run_nil.mpr (host_init rfcCksum)) hb rfl hsup
  obtain ⟨sa, hba, ha⟩ := peer_bare rteTcpAckFlag 0 1
  obtain ⟨k'', c', hst, hc', hest, -⟩ := hack _ sa calm hba ha rfl
  exact ⟨xs, k', c, hrep, hc, hr, hlen, k'', c', hst, hc', hest⟩

end TcpDpdk

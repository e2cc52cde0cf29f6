import TcpDpdk.Exchange
import TcpDpdk.Lib.Lossy
import TcpDpdk.PassiveOpen

/-!
# Agreement of the two ends

Hosts that do nothing but connect to each other, over a lossy network. As every
connection starts from the same number, all the segments there are look alike: a
SYN has the initial number and any other segment the one after it. TCP_SYN_SENT
counts whatever it gets as a SYN, and the two ends agree on their numbers as long as
that is what it gets.
-/

namespace TcpDpdk

/-! ## The hosts and their network -/

/-- On its way to the next host a segment may get another Ethernet header. -/
def routed (K : RteCksum) : Network.Link (machine K) (Env × EtherHdr) Packet where
  recv := fun (env, ether) p => ⟨.rx { p with ether }, env⟩
  emit out := out.frames.map Frame.packet

structure Connect where
  dip : BitVec 32
  dport : BitVec 16
  sport : BitVec 16
  env : Env

def Connect.input (x : Connect) : Input := ⟨.connect x.dip x.dport x.sport, x.env⟩

def hosts (ι : Type) [DecidableEq ι] (K : RteCksum) :
    Machine (Lossy.Net ι Core Packet) (Lossy.Input ι Connect (Env × EtherHdr)) Out :=
  Lossy.network (routed K) Connect.input

def Quad.Mirrors (q q' : Quad) : Prop :=
  q'.sip = q.dip ∧ q'.sport = q.dport ∧ q'.dip = q.sip ∧ q'.dport = q.sport

instance (q q' : Quad) : Decidable (q.Mirrors q') := inferInstanceAs (Decidable (_ ∧ _))

/-- Two ends of a flow that are both established expect what the other sends next. -/
def Agrees {ι : Type} (n : Lossy.Net ι Core Packet) : Prop :=
  ∀ i j q q' c c', (n.nodes i).conn q = some c → (n.nodes j).conn q' = some c' → q.Mirrors q' →
    c.tcpState = .established → c'.tcpState = .established →
    c.receiveSequenceSpace.nxt = c'.sendSequenceSpace.nxt ∧
      c'.receiveSequenceSpace.nxt = c.sendSequenceSpace.nxt

/-- A segment that is given to a connection in TCP_SYN_SENT is a SYN. -/
def SynFirst {ι : Type} [DecidableEq ι] {K : RteCksum} (e : (hosts ι K).Event) : Prop :=
  ∀ i env ether number p s c, e.input = .deliver i (env, ether) number →
    e.pre.sent[number]? = some p →
    rxSegment (e.pre.nodes i).tcp.nic env.pad { p with ether } = some s →
    (e.pre.nodes i).conn s.q = some c → c.tcpState = .synSent →
    s.tcpHdr.has rteTcpSynFlag = true

/-! ## The first numbers -/

structure Connection.AtStart (c : Connection) (q : Quad) : Prop where
  state : c.tcpState = .synSent ∨
    (c.tcpState = .synRecv ∨ c.tcpState = .established) ∧ c.receiveSequenceSpace.nxt = iss + 1
  nxt : c.sendSequenceSpace.nxt = iss + 1
  faces : c.Faces q

/-- An empty segment with the numbers everything starts from. -/
structure StartSegment (h : TcpHdr) (size : BitVec 32) : Prop where
  empty : size = 0
  fin : h.has rteTcpFinFlag = false
  syn : h.has rteTcpSynFlag = true → rteBeToCpu32 h.sentSeq = iss ∧
    (rteBeToCpu32 h.recvAck = iss ∨ rteBeToCpu32 h.recvAck = iss + 1)
  plain : h.has rteTcpSynFlag = false → rteBeToCpu32 h.sentSeq = iss + 1 ∧
    rteBeToCpu32 h.recvAck = iss + 1

def Packet.SentOn (p : Packet) (q : Quad) : Prop :=
  p.tcp.srcPort = q.dport ∧ p.tcp.dstPort = q.sport ∧ p.ipv4.srcAddr = q.dip ∧ p.ipv4.dstAddr = q.sip

/-- A frame of the connection `q`, which is left as `o`: one without SYN means that it
is established. -/
structure Frame.Starts (f : Frame) (q : Quad) (o : Option Connection) : Prop where
  segment : StartSegment f.tcp (rxSize f.ipv4 f.tcp)
  on : f.packet.SentOn q
  settled : f.tcp.has rteTcpSynFlag = false → ∃ c, o = some c ∧ c.tcpState = .established

structure Proceeds (q : Quad) (o o' : Option Connection) (out : Out) : Prop where
  conn : ∀ c, o' = some c → c.AtStart q
  settled : ∀ c, o = some c → c.tcpState = .established →
    ∃ c', o' = some c' ∧ c'.tcpState = .established
  frames : ∀ f ∈ out.frames, f.Starts q o'

section
variable {K : RteCksum} {env : Env} {t : Tcp} {q : Quad}

theorem sendP_starts {c : Connection} {o : Option Connection} {data : Mem} {frames : List Frame}
    (h : sendP env t (txHeaders K c 0) data 0 = some frames) (hq : c.Faces q)
    (hfin : c.rteTcpHdr.has rteTcpFinFlag = false)
    (hsyn : c.rteTcpHdr.has rteTcpSynFlag = true → c.sendSequenceSpace.nxt = iss ∧
      (c.receiveSequenceSpace.nxt = iss ∨ c.receiveSequenceSpace.nxt = iss + 1))
    (hplain : c.rteTcpHdr.has rteTcpSynFlag = false → c.sendSequenceSpace.nxt = iss + 1 ∧
      c.receiveSequenceSpace.nxt = iss + 1 ∧ ∃ c', o = some c' ∧ c'.tcpState = .established) :
    ∀ f ∈ frames, f.Starts q o := by
  intro f hf
  rcases sendP_some h with ⟨rfl, -⟩ | ⟨rfl, -, -⟩
  · cases hf
  · rw [List.mem_singleton] at hf
    subst hf
    have hseq : rteBeToCpu32 (txHeaders K c 0).rteTcpHdr.sentSeq = c.sendSequenceSpace.nxt :=
      rteBeToCpu32_rteCpuToBe32 _
    have hack : rteBeToCpu32 (txHeaders K c 0).rteTcpHdr.recvAck = c.receiveSequenceSpace.nxt :=
      rteBeToCpu32_rteCpuToBe32 _
    refine ⟨⟨rxSize_empty, hfin, fun hs => ?_, fun hs => ?_⟩, hq, fun hs => ?_⟩
    · show rteBeToCpu32 (txHeaders K c 0).rteTcpHdr.sentSeq = _ ∧
        (rteBeToCpu32 (txHeaders K c 0).rteTcpHdr.recvAck = _ ∨
          rteBeToCpu32 (txHeaders K c 0).rteTcpHdr.recvAck = _)
      rw [hseq, hack]
      exact hsyn hs
    · obtain ⟨hn, hr, -⟩ := hplain hs
      exact ⟨hseq.trans hn, hack.trans hr⟩
    · obtain ⟨-, -, hest⟩ := hplain hs
      exact hest

/-! ## One step -/

theorem rx_proceeds {c : Connection} {s : Seg} {o : Option Connection} {out : Out}
    (h : Rx K env t c s o out) (hc : c.AtStart q) (hquiet : c.Quiet) (hout : c.SynOut)
    (hs : StartSegment s.tcpHdr s.size)
    (hfirst : c.tcpState = .synSent → s.tcpHdr.has rteTcpSynFlag = true) :
    Proceeds q (some c) o out := by
  have hsize : sizeT s.size = 0 := by rw [hs.empty]; rfl
  have hnot : ∀ st, c.tcpState = st → st ≠ .finWait1 ∧ st ≠ .finWait2 ∧ st ≠ .lastAck := by
    intro st hst
    subst hst
    rcases hc.state with h | ⟨h | h, -⟩ <;> rw [h] <;> decide
  cases h with
  | ignored _ =>
    refine ⟨fun d hd => ?_, fun d hd hest => ⟨d, hd, hest⟩, fun _ hf => nomatch hf⟩
    cases hd
    exact hc
  | synAgain hst hcheck _ hp =>
    rw [hsize] at hp ⊢
    obtain ⟨hstate, hrcv⟩ := hc.state.resolve_left (by rw [hst]; decide)
    refine ⟨fun d hd => ?_, fun d hd hest => ?_, ?_⟩
    · cases hd
      refine ⟨Or.inr ⟨Or.inl ((sent_tcpState ..).trans hst), ?_⟩, ?_, sent_faces 0 hc.faces⟩
      · rw [sent_receiveSequenceSpace]
        exact hrcv
      · rw [unsent_nxt hquiet]
        exact hc.nxt
    · cases hd
      cases hst.symm.trans hest
    · refine sendP_starts hp hc.faces (unsent_has_fin hquiet) (fun _ => ⟨?_, Or.inr hrcv⟩) fun hno => ?_
      · show c.sendSequenceSpace.nxt - 1 = iss
        rw [hc.nxt]
        rfl
      · cases (unsent_has_syn hquiet).symm.trans hno
  | synAcked hst _ _ =>
    obtain ⟨-, hrcv⟩ := hc.state.resolve_left (by rw [hst]; decide)
    refine ⟨fun d hd => ?_, fun d hd hest => ⟨_, rfl, rfl⟩, fun _ hf => nomatch hf⟩
    cases hd
    exact ⟨Or.inr ⟨Or.inr rfl, hrcv⟩, hc.nxt, hc.faces⟩
  | @synAnswered d _ hst hd hp =>
    -- a SYN here has a number the acknowledgment test lets through
    obtain ⟨hseq, hackn⟩ := hs.syn (hfirst hst)
    have hack : ackCheck c s.ackn = true := (ackCheck_synOut hout (Or.inl hst) _).mpr hackn
    have hrcv : s.seq + 1 = iss + 1 := congrArg (· + 1) hseq
    rw [hsize] at hp ⊢
    rcases hd with ⟨-, rfl⟩ | ⟨hno, -⟩
    · refine ⟨fun e he => ?_, fun e he hest => ?_, ?_⟩
      · cases he
        refine ⟨Or.inr ⟨Or.inr (sent_tcpState ..), ?_⟩, ?_, sent_faces 0 hc.faces⟩
        · rw [sent_receiveSequenceSpace]
          exact hrcv
        · rw [sent_nxt_plain (synAnswered_quiet ..)]
          exact hc.nxt
      · cases he
        cases hst.symm.trans hest
      · refine sendP_starts hp hc.faces (synAnswered_quiet ..).2 (fun hyes => ?_) fun _ =>
          ⟨hc.nxt, hrcv, _, rfl, sent_tcpState ..⟩
        cases (synAnswered_quiet ..).1.symm.trans hyes
    · cases hack.symm.trans hno
  | finAnswered _ _ hf _ => cases hs.fin.symm.trans hf
  | acked hst hcheck _ hsz =>
    obtain ⟨-, hrcv⟩ := hc.state.resolve_left (by rw [hst]; decide)
    -- a copy of the SYN is outside the window
    have hplain : s.tcpHdr.has rteTcpSynFlag = false := by
      by_contra hsyn
      obtain ⟨hseq, -⟩ := hs.syn (Bool.not_eq_false _ ▸ hsyn)
      have hno := segmentCheck_syn hrcv
      rw [hsz, show s.seq = iss from hseq] at hcheck
      cases hcheck.symm.trans hno
    obtain ⟨-, hackn⟩ := hs.plain hplain
    refine ⟨fun d hd => ?_, fun d hd hest => ⟨_, rfl, hst⟩, fun _ hf => nomatch hf⟩
    cases hd
    exact ⟨Or.inr ⟨Or.inr hst, hrcv⟩, hackn, hc.faces⟩
  | dataAnswered _ _ _ hne _ => exact absurd hs.empty hne
  | finAcked hst _ _ _ => exact absurd rfl (hnot _ hst).1
  | finAcked2 hst _ _ => exact absurd rfl (hnot _ hst).2.1
  | closed hst => exact absurd rfl (hnot _ hst).2.2

theorem made_proceeds {c : Connection} {o : Option Connection} {data : Mem} {frames : List Frame}
    (h : sendP env t (txHeaders K c 0) data 0 = some frames) (hq : c.Faces q) {f : Byte}
    (hf : c.rteTcpHdr.tcpFlags = f) (hflags : f &&& rteTcpSynFlag ≠ 0 ∧ f &&& rteTcpFinFlag = 0)
    (hn : c.sendSequenceSpace.nxt = iss)
    (hst : c.tcpState = .synSent ∧ c.receiveSequenceSpace.nxt = iss ∨
      c.tcpState = .synRecv ∧ c.receiveSequenceSpace.nxt = iss + 1)
    (ho : o = some (c.sent K 0) ∨ o = none) : Proceeds q none o { frames } := by
  subst hf
  have hsyn : c.rteTcpHdr.has rteTcpSynFlag = true := by
    rw [← Bool.not_eq_false, TcpHdr.has_eq_false]
    exact hflags.1
  have hfin : c.rteTcpHdr.has rteTcpFinFlag = false := TcpHdr.has_eq_false.mpr hflags.2
  refine ⟨fun d hd => ?_, fun _ hd => (nomatch hd), ?_⟩
  · rcases ho with ho | ho <;> cases ho.symm.trans hd
    refine ⟨?_, ?_, sent_faces 0 hq⟩
    · rw [sent_tcpState, sent_receiveSequenceSpace]
      rcases hst with ⟨hst, -⟩ | ⟨hst, hrcv⟩
      · exact Or.inl hst
      · exact Or.inr ⟨Or.inl hst, hrcv⟩
    · rw [sent_nxt_flag (by rw [hsyn, hfin]; decide), hn]
  · refine sendP_starts h hq hfin (fun _ => ⟨hn, ?_⟩) fun hno => ?_
    · exact hst.imp And.right And.right
    · cases hsyn.symm.trans hno

theorem slot_rx_proceeds {p : Packet} {o o' : Option Connection} {out : Out}
    (h : Slot K env t (.rx p) o o' out)
    (hp : StartSegment p.tcp (rxSize p.ipv4 p.tcp)) (hq : q = keyOf t.nic ⟨.rx p, env⟩)
    (ho : ∀ c, o = some c → c.AtStart q ∧ c.Quiet ∧ c.SynOut)
    (hfirst : ∀ s c, rxSegment t.nic env.pad p = some s → o = some c → c.tcpState = .synSent →
      s.tcpHdr.has rteTcpSynFlag = true) : Proceeds q o o' out := by
  cases h with
  | dropped _ => exact ⟨fun c hc => (ho c hc).1, fun c hc hest => ⟨c, hc, hest⟩, fun _ hf => nomatch hf⟩
  | unknown _ _ => exact ⟨fun _ hc => (nomatch hc), fun _ hc => (nomatch hc), fun _ hf => nomatch hf⟩
  | @opened _ s g _ _ hs hsyn _ hsend ho' =>
    obtain ⟨-, rfl⟩ := rxSegment_some hs
    have hseq : rteBeToCpu32 p.tcp.sentSeq = iss := by
      refine (hp.syn ?_).1
      rw [← Bool.not_eq_false, TcpHdr.has_eq_false, show p.tcp.tcpFlags = rteTcpSynFlag from hsyn]
      decide
    have hsize : sizeT (rxSize p.ipv4 p.tcp) = 0 := by rw [hp.empty]; rfl
    subst hq
    dsimp only at hsend ho'
    rw [hsize] at hsend ho'
    exact made_proceeds (f := rteTcpSynFlag ||| rteTcpAckFlag) hsend ⟨rfl, rfl, rfl, rfl⟩ rfl
      (by decide) rfl (Or.inr ⟨rfl, congrArg (· + 1) hseq⟩) ho'
  | @handled _ s c _ _ hs hrx =>
    obtain ⟨hc, hquiet, hout⟩ := ho c rfl
    refine rx_proceeds hrx hc hquiet hout ?_ (hfirst s c hs rfl)
    obtain ⟨-, rfl⟩ := rxSegment_some hs
    exact hp

theorem slot_connect_proceeds {dip : BitVec 32} {dport sport : BitVec 16} {o o' : Option Connection}
    {out : Out} (h : Slot K env t (.connect dip dport sport) o o' out)
    (hq : q = keyOf t.nic ⟨.connect dip dport sport, env⟩) (ho : ∀ c, o = some c → c.AtStart q) :
    Proceeds q o o' out := by
  cases h with
  | connected _ hsend ho' =>
    subst hq
    exact made_proceeds (f := rteTcpSynFlag) hsend ⟨rfl, rfl, rfl, rfl⟩ rfl (by decide) rfl
      (Or.inl ⟨rfl, rfl⟩) ho'
  | present => exact ⟨ho, fun c hc hest => ⟨c, hc, hest⟩, fun _ hf => nomatch hf⟩

/-- In TCP_SYN_SENT an acknowledgment establishes, and whatever came with it is
counted as one. -/
theorem rx_synSent {c : Connection} {s : Seg} {o : Option Connection} {out : Out}
    (h : Rx K env t c s o out) (hst : c.tcpState = .synSent) (ha : ackCheck c s.ackn = true) :
    ∃ c', o = some c' ∧ c'.tcpState = .established ∧ c'.receiveSequenceSpace.nxt = s.seq + 1 := by
  obtain ⟨d, frames, hd, ho, -⟩ := h.of_synSent hst
  rcases hd with ⟨-, rfl⟩ | ⟨hno, -⟩
  · exact ⟨_, ho, sent_tcpState .., by rw [sent_receiveSequenceSpace]; rfl⟩
  · cases hno.symm.trans ha

end

/-! ## The network -/

def Core.AtStart (k : Core) : Prop := ∀ q c, k.conn q = some c → c.AtStart q

section
variable {ι : Type}

def Packet.Settled (nodes : ι → Core) (p : Packet) : Prop :=
  p.tcp.has rteTcpSynFlag = false →
    ∃ i q c, (nodes i).conn q = some c ∧ c.tcpState = .established ∧ p.SentOn q

def Starting (n : Lossy.Net ι Core Packet) : Prop :=
  Lossy.Kept Core.AtStart
    (fun nodes p => StartSegment p.tcp (rxSize p.ipv4 p.tcp) ∧ p.Settled nodes) n

theorem Starting.agrees {n : Lossy.Net ι Core Packet} (h : Starting n) : Agrees n := by
  have one : ∀ i q c, (n.nodes i).conn q = some c → c.tcpState = .established →
      c.receiveSequenceSpace.nxt = iss + 1 ∧ c.sendSequenceSpace.nxt = iss + 1 := by
    intro i q c hc hest
    have hat := h.nodes i q c hc
    exact ⟨(hat.state.resolve_left (by rw [hest]; decide)).2, hat.nxt⟩
  intro i j q q' c c' hc hc' _ hest hest'
  obtain ⟨hr, hn⟩ := one i q c hc hest
  obtain ⟨hr', hn'⟩ := one j q' c' hc' hest'
  exact ⟨hr.trans hn'.symm, hr'.trans hn.symm⟩

variable [DecidableEq ι] {K : RteCksum}

theorem settled_update {nodes : ι → Core} {i : ι} {k : Core} {p : Packet}
    (hk : ∀ q c, (nodes i).conn q = some c → c.tcpState = .established →
      ∃ c', k.conn q = some c' ∧ c'.tcpState = .established)
    (h : p.Settled nodes) : p.Settled (Function.update nodes i k) := by
  intro hno
  obtain ⟨j, q, c, hc, hest, hon⟩ := h hno
  by_cases hj : j = i
  · subst hj
    obtain ⟨c', hc', hest'⟩ := hk q c hc hest
    exact ⟨j, q, c', by rwa [Function.update_self], hest', hon⟩
  · exact ⟨j, q, c, by rwa [Function.update_of_ne hj], hest, hon⟩

theorem touch_starting {nodes : ι → Core} {i : ι} {k : Core} {q : Quad} {o : Option Connection}
    {out : Out} (hat : (nodes i).AtStart) (ht : Touch (nodes i) k q o)
    (hp : Proceeds q ((nodes i).conn q) o out) :
    k.AtStart ∧
      (∀ p : Packet, StartSegment p.tcp (rxSize p.ipv4 p.tcp) ∧ p.Settled nodes →
        StartSegment p.tcp (rxSize p.ipv4 p.tcp) ∧ p.Settled (Function.update nodes i k)) ∧
      ∀ p ∈ (routed K).emit out, StartSegment p.tcp (rxSize p.ipv4 p.tcp) ∧
        p.Settled (Function.update nodes i k) := by
  refine ⟨fun x c hc => ?_, fun p ⟨hseg, hset⟩ => ⟨hseg, settled_update (fun x c hc hest => ?_) hset⟩,
    fun p hm => ?_⟩
  · by_cases hx : x = q
    · subst hx
      exact hp.conn c (ht.at_key.symm.trans hc)
    · exact hat x c ((ht.others x hx).symm.trans hc)
  · by_cases hx : x = q
    · subst hx
      obtain ⟨c', hc', hest'⟩ := hp.settled c hc hest
      exact ⟨c', ht.at_key.trans hc', hest'⟩
    · exact ⟨c, (ht.others x hx).trans hc, hest⟩
  · obtain ⟨f, hf, rfl⟩ := List.mem_map.mp hm
    have hstart := hp.frames f hf
    refine ⟨hstart.segment, fun hno => ?_⟩
    obtain ⟨c, hc, hest⟩ := hstart.settled hno
    exact ⟨i, q, c, by rw [Function.update_self]; exact ht.at_key.trans hc, hest, hstart.on⟩

theorem event_starting {tr : List (hosts ι K).Event} {e : (hosts ι K).Event}
    (hr : Machine.Run tr e.pre) (h : Starting e.pre) (hfirst : SynFirst e) : Starting e.post := by
  refine Lossy.Kept.step h fun i a k htakes hstep => ?_
  obtain ⟨tr', hr'⟩ := Lossy.run_nodes hr i
  obtain ⟨o, ht, hslot⟩ := step_slot (run_rep hr') hstep
  have hat := h.nodes i
  apply touch_starting hat ht
  generalize hin : e.input = input at htakes
  cases htakes with
  | @deliver _ x number p hp =>
    obtain ⟨env, ether⟩ := x
    obtain ⟨hseg, -⟩ := h.sent p (List.mem_of_getElem? hp)
    refine slot_rx_proceeds hslot hseg rfl (fun c hc => ?_) fun s c hs hc hst => ?_
    · exact ⟨hat _ c hc, run_quiet hr' _ c hc, run_synOut hr' _ c hc⟩
    · have hkey : keyOf (e.pre.nodes i).tcp.nic ⟨.rx { p with ether }, env⟩ = s.q := by
        obtain ⟨-, rfl⟩ := rxSegment_some hs
        rfl
      exact hfirst i env ether number p s c hin hp hs (hkey ▸ hc) hst
  | act => exact slot_connect_proceeds hslot rfl fun c hc => hat _ c hc

/-- The segment of an established sender, counted as a SYN: the two ends are both
established now and one number apart. -/
theorem plain_disagrees (nodes : ι → Core) {i : ι} {e : (machine K).Event} {p : Packet} {s : Seg}
    {c : Connection} {sent : List Packet} (hpre : e.pre = nodes i) (hrep : e.pre.Rep)
    (hat : ∀ i, (nodes i).AtStart) (hset : p.Settled nodes) (hs : segOf e = some s)
    (hq : p.SentOn ⟨s.q.dip, s.q.dport, s.q.sip, s.q.sport, 0⟩)
    (hno : p.tcp.has rteTcpSynFlag = false) (hc : e.pre.conn s.q = some c)
    (hst : c.tcpState = .synSent) (hout : c.SynOut) (hseq : s.seq = iss + 1)
    (hackn : s.ackn = iss + 1) : ¬Agrees ⟨Function.update nodes i e.post, sent⟩ := by
  intro hagree
  have hack : ackCheck c s.ackn = true := (ackCheck_synOut hout (Or.inl hst) _).mpr (Or.inr hackn)
  obtain ⟨d, hd, hest, hrcv⟩ := rx_synSent (event_rx hrep hs hc) hst hack
  obtain ⟨j, q', c', hc', hest', hsp, hdp, hsa, hda⟩ := hset hno
  have hmirror : s.q.Mirrors q' :=
    ⟨hda.symm.trans hq.2.2.2, hdp.symm.trans hq.2.1, hsa.symm.trans hq.2.2.1, hsp.symm.trans hq.1⟩
  have hpost : (Function.update nodes i e.post j).conn q' = some c' := by
    by_cases hj : j = i
    · subst hj
      rw [Function.update_self]
      rw [← hpre] at hc'
      have hne : q' ≠ eventKey e := by
        intro he
        rw [he, segOf_key hs] at hc'
        cases hc.symm.trans hc'
        cases hst.symm.trans hest'
      exact ((event_slot e hrep).1 q' hne).trans hc'
    · rw [Function.update_of_ne hj]
      exact hc'
  have hself : (Function.update nodes i e.post i).conn s.q = some d := by
    rw [Function.update_self]
    exact hd
  obtain ⟨heq, -⟩ := hagree i j s.q q' d c' hself hpost hmirror hest hest'
  rw [hrcv, hseq, (hat j q' c' hc').nxt] at heq
  exact absurd heq (by decide)

theorem event_agrees {tr : List (hosts ι K).Event} {e : (hosts ι K).Event}
    (hr : Machine.Run tr e.pre) (h : Starting e.pre) : Agrees e.post ↔ SynFirst e := by
  constructor
  · intro hagree i env ether number p s c hin hp hs hc hst
    by_contra hno
    rw [Bool.not_eq_true] at hno
    obtain ⟨hseg, hset⟩ := h.sent p (List.mem_of_getElem? hp)
    obtain ⟨i', a, k, htakes, hstep, hpost⟩ := Lossy.event_takes e
    rw [hin] at htakes
    cases htakes with
    | deliver hp' =>
      cases hp.symm.trans hp'
      obtain ⟨tr', hr'⟩ := Lossy.run_nodes hr i
      have hs' := hs
      obtain ⟨-, rfl⟩ := rxSegment_some hs
      obtain ⟨hseq, hackn⟩ := hseg.plain hno
      rw [hpost] at hagree
      exact plain_disagrees e.pre.nodes (e := ⟨e.pre.nodes i, _, k, e.out, hstep⟩) rfl (run_rep hr')
        h.nodes hset hs' ⟨rfl, rfl, rfl, rfl⟩ hno hc hst (run_synOut hr' _ c hc) hseq hackn hagree
  · intro hfirst
    exact (event_starting hr h hfirst).agrees

/-- In every run of connecting hosts, whatever the network does: the ends that are
established agree in every state, exactly if no segment other than a SYN is ever given to
a connection in TCP_SYN_SENT. -/
theorem agreement_iff {tr : List (hosts ι K).Event} {n : Lossy.Net ι Core Packet}
    (h : Machine.Run tr n) : (∀ e ∈ tr, Agrees e.post) ↔ ∀ e ∈ tr, SynFirst e := by
  rw [← Machine.meets_mem, ← Machine.meets_mem]
  refine Machine.Run.meets_iff_inv (I := fun _ n => Starting n) ?_ ?_ ?_ h
  · intro n hn
    refine Lossy.kept_init (fun k hk q c hc => ?_) hn
    obtain ⟨nic, last, rfl⟩ := hk
    cases hc
  · intro tr e hr hstart
    exact event_agrees hr hstart
  · intro tr e hr hstart hfirst
    exact event_starting hr hstart hfirst

end

/-! ## Two hosts -/

def envOf {ι : Type} : Lossy.Input ι Connect (Env × EtherHdr) → Env
  | .deliver _ (env, _) _ => env
  | .act _ x => x.env

/-- Allocations succeed, and insertions would. -/
def Provided {ι : Type} [DecidableEq ι] {K : RteCksum} (e : (hosts ι K).Event) : Prop :=
  (envOf e.input).mbuf = true ∧ (envOf e.input).object ≠ none ∧
    ∀ i q, (e.pre.nodes i).tcp.rteHash.Room q

def twoIdle : Lossy.Net Bool Core Packet where
  nodes b := initializeTcp (nicOf b) 0
  sent := []

theorem twoIdle_init (K : RteCksum) : (hosts Bool K).init twoIdle :=
  ⟨fun b => ⟨nicOf b, 0, rfl⟩, rfl⟩

def bothConnect : List (Lossy.Input Bool Connect (Env × EtherHdr)) :=
  [.act false ⟨peerNic.ip, peerPort, hostPort, calm⟩, .act true ⟨hostNic.ip, hostPort, peerPort, calm⟩]

def toPeer : Env × EtherHdr := (calm, ⟨peerNic.mac, hostNic.mac, rteCpuToBe16 0x0800⟩)
def toHost : Env × EtherHdr := (calm, ⟨hostNic.mac, peerNic.mac, rteCpuToBe16 0x0800⟩)

theorem agreement_iff_bothConnect : ∃ (tr : List (hosts Bool rfcCksum).Event)
    (n : Lossy.Net Bool Core Packet), Machine.Run tr n ∧
      ((n.nodes false).conn peerQuad).map (·.tcpState) = some .established ∧
      ((n.nodes true).conn hostQuad).map (·.tcpState) = some .established ∧
      ((∀ e ∈ tr, Agrees e.post) ↔ ∀ e ∈ tr, SynFirst e) := by
  obtain ⟨tr, n, hr, hQ⟩ := Machine.exists_run (twoIdle_init rfcCksum)
    (bothConnect ++ [.deliver true toPeer 0, .deliver false toHost 1, .deliver true toPeer 0])
    (Q := fun r => ((r.2.nodes false).conn peerQuad).map (·.tcpState) = some .established ∧
      ((r.2.nodes true).conn hostQuad).map (·.tcpState) = some .established) (by decide +kernel)
  obtain ⟨h₁, h₂⟩ := of_decide_eq_true hQ
  exact ⟨tr, n, hr, h₁, h₂, agreement_iff hr⟩

/-- The peer answers the host's SYN, and its answer overtakes its own SYN. -/
theorem not_agreement : ¬∀ (tr : List (hosts Bool rfcCksum).Event) (n : Lossy.Net Bool Core Packet),
    Machine.Run tr n → (∀ e ∈ tr, Provided e) →
    (n.nodes false).tcp.nic.ip ≠ (n.nodes true).tcp.nic.ip → ∀ e ∈ tr, Agrees e.post := by
  intro h
  obtain ⟨tr, n, hr, hQ⟩ := Machine.exists_run (twoIdle_init rfcCksum)
    (bothConnect ++ [.deliver true toPeer 0, .deliver false toHost 2])
    (Q := fun r => (∀ e ∈ r.1, (envOf e.input).mbuf = true ∧ (envOf e.input).object.isSome = true ∧
        ∀ b, (e.pre.nodes b).tcp.rteHash.map.entries.length < 128) ∧
      (r.2.nodes false).tcp.nic.ip ≠ (r.2.nodes true).tcp.nic.ip ∧
      ∃ e ∈ r.1, ∃ c ∈ (e.post.nodes false).conn peerQuad, ∃ c' ∈ (e.post.nodes true).conn hostQuad,
        c.tcpState = .established ∧ c'.tcpState = .established ∧
          c.receiveSequenceSpace.nxt ≠ c'.sendSequenceSpace.nxt) (by decide +kernel)
  obtain ⟨hall, hip, e, he, c, hc, c', hc', hest, hest', hne⟩ := of_decide_eq_true hQ
  refine hne (h tr n hr (fun e he => ?_) hip e he false true _ _ c c' hc hc' (by decide) hest hest').1
  obtain ⟨hm, hobj, hroom⟩ := hall e he
  exact ⟨hm, Option.isSome_iff_ne_none.mp hobj, fun b q => Or.inr (hroom b)⟩

end TcpDpdk

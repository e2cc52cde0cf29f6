import TcpDpdk.Host

/-!
# The receive space

What a segment occupies in the peer's sequence numbers is its payload and one
number each for SYN and FIN. The handlers count differently: the payload for data
in TCP_ESTABLISHED, one for everything else they take. `rcvNxt_iff` says for which
segments the two agree.
-/

namespace TcpDpdk

/-! ## What a segment occupies -/

/-- `SEG.LEN` of RFC 793. -/
def Seg.len (s : Seg) : BitVec 32 :=
  s.size + (if s.tcpHdr.has rteTcpSynFlag then 1 else 0) +
    (if s.tcpHdr.has rteTcpFinFlag then 1 else 0)

/-- The acceptance test of RFC 793: the first or the last number of the segment
lies in the window. -/
def Seg.InWindow (s : Seg) (c : Connection) : Prop :=
  let nxt := c.receiveSequenceSpace.nxt
  let wnd := c.receiveSequenceSpace.wnd.toNat
  if s.len = 0 then
    s.seq = nxt ∨ Circle.fwd nxt s.seq < wnd
  else
    Circle.fwd nxt s.seq < wnd ∨ Circle.fwd nxt (s.seq + s.len - 1) < wnd

def Frame.ack (f : Frame) : BitVec 32 := rteBeToCpu32 f.tcp.recvAck

theorem sendP_ack {K : RteCksum} {env : Env} {t : Tcp} {c : Connection} {n m : BitVec 64}
    {data : Mem} {frames : List Frame} (h : sendP env t (txHeaders K c n) data m = some frames) :
    ∀ f ∈ frames, f.ack = c.receiveSequenceSpace.nxt := by
  intro f hf
  rcases sendP_some h with ⟨rfl, -⟩ | ⟨rfl, -, -⟩
  · cases hf
  · rw [List.mem_singleton] at hf
    subst hf
    simp [Frame.ack, txFrame, txHeaders]

/-! ## What the handlers count -/

/-- If processing `s` on `c` moves `rcv.nxt`, it moves it over the whole of `s`,
and every reply to `s` acknowledges the whole of `s` and no more. -/
def Accounts (c : Connection) (s : Seg) (r : Ret) : Prop :=
  (r.conn.receiveSequenceSpace.nxt ≠ c.receiveSequenceSpace.nxt →
    r.conn.receiveSequenceSpace.nxt = s.seq + s.len) ∧
  ∀ f ∈ r.out.frames, f.ack = s.seq + s.len

/-- The handler counts `n` for `s`. Without a buffer there is no reply, and then it does
no harm where `rcv.nxt` stays what it was. -/
def Seg.Fits (env : Env) (s : Seg) (c : Connection) (n : BitVec 32) : Prop :=
  s.len = n ∨ env.mbuf = false ∧ s.seq + n = c.receiveSequenceSpace.nxt

def Counted (env : Env) (c : Connection) (s : Seg) : Prop :=
  match c.tcpState with
  | .synSent => s.Fits env c 1
  | .established => segmentCheck c s.size s.seq = true →
    if s.tcpHdr.has rteTcpFinFlag then s.Fits env c 1 else s.size ≠ 0 → s.Fits env c s.size
  | .finWait1 => segmentCheck c s.size s.seq = true → ackCheck c s.ackn = true → s.Fits env c 1
  | .finWait2 => segmentCheck c s.size s.seq = true → s.Fits env c 1
  | _ => True

section
variable {c : Connection} {s : Seg} {r : Ret}

theorem accounts_same (h : r.conn.receiveSequenceSpace.nxt = c.receiveSequenceSpace.nxt)
    (hf : r.out.frames = []) : Accounts c s r := by
  refine ⟨fun hne => absurd h hne, ?_⟩
  rw [hf]
  exact fun _ hf => nomatch hf

theorem accounts_moved {K : RteCksum} {env : Env} {t : Tcp} {d : Connection} {data : Mem}
    {n : BitVec 32} {l m : BitVec 64}
    (hp : sendP env t (txHeaders K d l) data m = some r.out.frames)
    (hd : d.receiveSequenceSpace.nxt = s.seq + n)
    (h : r.conn.receiveSequenceSpace.nxt = s.seq + n) : Accounts c s r ↔ s.Fits env c n := by
  have hack : ∀ f ∈ r.out.frames, f.ack = s.seq + n := fun f hf => (sendP_ack hp f hf).trans hd
  unfold Accounts Seg.Fits
  rw [h]
  constructor
  · intro ha
    by_cases hm : env.mbuf = true
    · obtain ⟨f, hf⟩ := (sendP_exists hp).mpr hm
      exact Or.inl (add_left_cancel ((hack f hf).symm.trans (ha.2 f hf))).symm
    · by_cases he : s.seq + n = c.receiveSequenceSpace.nxt
      · exact Or.inr ⟨Bool.eq_false_iff.mpr hm, he⟩
      · exact Or.inl (add_left_cancel (ha.1 he)).symm
  · intro hn
    rcases hn with rfl | ⟨hm, he⟩
    · exact ⟨fun _ => rfl, hack⟩
    · refine ⟨fun hne => absurd he hne, fun f hf => ?_⟩
      cases hm.symm.trans ((sendP_exists hp).mp ⟨f, hf⟩)

end

section
variable {K : RteCksum} {env : Env} {t : Tcp} {c : Connection} {s : Seg} {r : Ret}

theorem synSent_accounts (hst : c.tcpState = .synSent) (h : handleTcpSynSent K env t c s = some r) :
    Accounts c s r ↔ Counted env c s := by
  unfold Counted
  rw [hst]
  obtain ⟨d, frames, -, hp, rfl⟩ := handleTcpSynSent_cases h
  refine accounts_moved hp rfl ?_
  rw [sent_receiveSequenceSpace]
  rfl

theorem established_accounts (hst : c.tcpState = .established)
    (h : handleTcpEstablish K env t c s = some r) : Accounts c s r ↔ Counted env c s := by
  unfold Counted
  rw [hst]
  rcases handleTcpEstablish_cases h with ⟨frames, hs, hf, hp, rfl⟩ | ⟨hs, hf, h0, rfl⟩ |
    ⟨frames, hs, hf, h0, hp, rfl⟩ | ⟨hs, rfl⟩
  · have hm : ((c.finAnswered s).sent K (sizeT s.size)).receiveSequenceSpace.nxt = s.seq + 1 := by
      rw [sent_receiveSequenceSpace]; rfl
    simp only [hs, hf, ite_true, forall_const]
    exact accounts_moved hp rfl hm
  · refine iff_of_true (accounts_same rfl rfl) fun _ => ?_
    rw [if_neg (by simp [hf])]
    exact fun hne => absurd h0 hne
  · have hm : ((c.dataAnswered s).sent K 0).receiveSequenceSpace.nxt = s.seq + s.size := by
      rw [sent_receiveSequenceSpace]; rfl
    simp only [hs, hf, Bool.false_eq_true, ite_false, forall_const]
    exact (accounts_moved hp rfl hm).trans ⟨fun hn _ => hn, fun hn => hn h0⟩
  · refine iff_of_true (accounts_same rfl rfl) fun hs' => ?_
    cases hs.symm.trans hs'

theorem finWait1_accounts (hst : c.tcpState = .finWait1) (h : handleTcpFinWait1 K env t c s = some r) :
    Accounts c s r ↔ Counted env c s := by
  unfold Counted
  rw [hst]
  rcases handleTcpFinWait1_cases h with ⟨frames, hs, ha, hp, rfl⟩ | ⟨ha, rfl⟩
  · simp only [hs, ha, forall_const]
    refine accounts_moved hp rfl ?_
    rw [sent_receiveSequenceSpace]
    rfl
  · refine iff_of_true (accounts_same rfl rfl) fun hs ha' => ?_
    cases (ha hs).symm.trans ha'

theorem finWait2_accounts (hst : c.tcpState = .finWait2) (h : handleTcpFinWait2 K env t c s = some r) :
    Accounts c s r ↔ Counted env c s := by
  unfold Counted
  rw [hst]
  rcases handleTcpFinWait2_cases h with ⟨frames, hs, hp, rfl⟩ | ⟨hs, rfl⟩
  · simp only [hs, forall_const]
    refine accounts_moved hp rfl ?_
    rw [sent_receiveSequenceSpace]
    rfl
  · refine iff_of_true (accounts_same rfl rfl) fun hs' => ?_
    cases hs.symm.trans hs'

/-- In the four states that move `rcv.nxt`, it is moved over exactly the segment
received if and only if the segment fits what its handler counts. -/
theorem rcvNxt_iff
    (hst : c.tcpState = .synSent ∨ c.tcpState = .established ∨ c.tcpState = .finWait1 ∨
      c.tcpState = .finWait2)
    (h : rxSwitch K env t c s = some r) : Accounts c s r ↔ Counted env c s := by
  unfold rxSwitch at h
  rcases hst with hst | hst | hst | hst <;> rw [hst] at h
  · exact synSent_accounts hst h
  · exact established_accounts hst h
  · exact finWait1_accounts hst h
  · exact finWait2_accounts hst h

end

/-! ## On the host -/

def expecting1 (tcpState : TcpState) : Connection :=
  { zeroed with
    q := peerQuad
    tcpState
    sendSequenceSpace := { zeroed.sendSequenceSpace with nxt := 1 }
    receiveSequenceSpace := { nxt := 1, wnd := 1000, up := false, irs := 0 } }

def peerSeg (flags : Byte) (seq ackn : BitVec 32) (data : List Byte) : Seg :=
  let p := peerPacket flags seq ackn data
  ⟨peerQuad, p.tcp, p.ipv4, p.data, rxSize p.ipv4 p.tcp⟩

theorem rcvNxt_iff_data : ∃ r, rxSwitch rfcCksum calm host.tcp (expecting1 .established)
      (peerSeg rteTcpAckFlag 1 1 [0x41, 0x42]) = some r ∧
    (Accounts (expecting1 .established) (peerSeg rteTcpAckFlag 1 1 [0x41, 0x42]) r ↔
      Counted calm (expecting1 .established) (peerSeg rteTcpAckFlag 1 1 [0x41, 0x42])) := by
  cases h : rxSwitch rfcCksum calm host.tcp (expecting1 .established)
      (peerSeg rteTcpAckFlag 1 1 [0x41, 0x42]) with
  | none => exact absurd (congrArg Option.isNone h) (by decide +kernel)
  | some r => exact ⟨r, rfl, rcvNxt_iff (by decide) h⟩

theorem not_rcvNxt_fin_data : ¬∀ (c : Connection) (s : Seg) (r : Ret),
    (c.tcpState = .synSent ∨ c.tcpState = .established ∨ c.tcpState = .finWait1 ∨
      c.tcpState = .finWait2) →
    rxSwitch rfcCksum calm host.tcp c s = some r → Accounts c s r := by
  intro h
  let c := expecting1 .established
  let s := peerSeg (rteTcpFinFlag ||| rteTcpAckFlag) 1 1 [0x41, 0x42]
  have htest : (rxSwitch rfcCksum calm host.tcp c s).any (fun r =>
      r.conn.receiveSequenceSpace.nxt ≠ c.receiveSequenceSpace.nxt ∧
        r.conn.receiveSequenceSpace.nxt ≠ s.seq + s.len) = true := by decide +kernel
  obtain ⟨r, hr, hQ⟩ := (Option.any_eq_true ..).mp htest
  obtain ⟨hmoved, hne⟩ := of_decide_eq_true hQ
  exact hne ((h c s r (by decide) hr).1 hmoved)

end TcpDpdk

import TcpDpdk.Numbering

/-!
# Waiting for the acknowledgment of our FIN

The test for acknowledgments needs less than half the circle from `snd.una` to
`snd.nxt`. In TCP_FIN_WAIT1 neither moves, except for a close repeated there, but
`snd.una` has stood still since the connection was opened while `snd.nxt` went
wherever the peer's acknowledgments took it.
-/

namespace TcpDpdk

theorem ackCheck_nxt (c : Connection) : ackCheck c c.sendSequenceSpace.nxt = true ↔
    Circle.fwd c.sendSequenceSpace.una c.sendSequenceSpace.nxt + 1 < 2 ^ 31 := by
  unfold ackCheck isBetweenWrapped
  rw [Bool.and_eq_true, wrappingLt_iff, wrappingLt_iff]
  exact Circle.between_end (by decide) (by decide)

/-- A segment without payload that comes next in order and acknowledges all we sent. -/
def Seg.AcksAll (s : Seg) (c : Connection) : Prop :=
  s.size = 0 ∧ s.seq = c.receiveSequenceSpace.nxt ∧ s.ackn = c.sendSequenceSpace.nxt

def Connection.LeavesOnAck (K : RteCksum) (c : Connection) : Prop :=
  ∀ env t s, s.AcksAll c →
    ∃ r, handleTcpFinWait1 K env t c s = some r ∧ r.conn.tcpState ≠ .finWait1

def Connection.InHalf (c : Connection) : Prop :=
  Circle.fwd c.sendSequenceSpace.una c.sendSequenceSpace.nxt + 1 < 2 ^ 31

def Connection.NextInHalf (c : Connection) : Prop :=
  Circle.fwd c.sendSequenceSpace.una (c.sendSequenceSpace.nxt + 1) + 1 < 2 ^ 31

section
variable {K : RteCksum}

theorem leavesOnAck_iff {c : Connection} (hst : c.tcpState = .finWait1) :
    c.LeavesOnAck K ↔ c.InHalf := by
  unfold Connection.InHalf
  rw [← ackCheck_nxt]
  constructor
  · intro h
    -- what the test says does not depend on the rest of the segment
    let s : Seg := {
      q := c.q
      tcpHdr := { c.rteTcpHdr with
        sentSeq := rteCpuToBe32 c.receiveSequenceSpace.nxt
        recvAck := rteCpuToBe32 c.sendSequenceSpace.nxt }
      ipv4Hdr := c.rteIpv4Hdr
      data := Mem.null
      size := 0 }
    have hack : s.ackn = c.sendSequenceSpace.nxt := rteBeToCpu32_rteCpuToBe32 _
    obtain ⟨r, hr, hleft⟩ := h ⟨true, none, 0, 0⟩ ⟨⟨0, 0, 0⟩, Store.Table.empty, ⟨0, 0, 0⟩⟩ s
      ⟨rfl, rteBeToCpu32_rteCpuToBe32 _, hack⟩
    rcases handleTcpFinWait1_cases hr with ⟨_, -, ha, -, -⟩ | ⟨-, rfl⟩
    · rwa [hack] at ha
    · exact absurd hst hleft
  · intro ha env t s ⟨h0, hseq, hack⟩
    have hsc : segmentCheck c s.size s.seq = true := by
      rw [h0]
      exact segmentCheck_self hseq.symm
    obtain ⟨frames, hx⟩ := tcpTxPackets_empty K env t { c.finAcked s with tcpState := .finWait2 } Mem.null
    unfold handleTcpFinWait1
    rw [hsc, if_neg (by decide), hack, if_pos ha, hx]
    refine ⟨_, rfl, ?_⟩
    rw [sent_tcpState]
    show TcpState.finWait2 ≠ .finWait1
    decide

/-! ## The send space in TCP_FIN_WAIT1 -/

theorem close_space {env : Env} {t : Tcp} {x : Quad} {c c' : Connection} {out : Out}
    (h : Slot K env t (.close x) (some c) (some c') out) :
    c'.sendSequenceSpace.una = c.sendSequenceSpace.una ∧
      c'.sendSequenceSpace.nxt = c.sendSequenceSpace.nxt + 1 := by
  cases h with
  | finSent _ => exact ⟨sent_una K c.finRaised 0, finRaised_nxt c 0⟩

theorem finWait1_space {env : Env} {t : Tcp} {op : Op} {c c' : Connection} {out : Out}
    (h : Slot K env t op (some c) (some c') out) (hst : c.tcpState = .finWait1)
    (hop : ∀ x, op ≠ .close x) : c'.sendSequenceSpace.una = c.sendSequenceSpace.una ∧
      c'.sendSequenceSpace.nxt = c.sendSequenceSpace.nxt := by
  cases h with
  | dropped _ => exact ⟨rfl, rfl⟩
  | handled _ hrx =>
    rcases hrx.of_finWait1 hst with ⟨-, hsame⟩ | ⟨-, -, hnone⟩
    · cases hsame
      exact ⟨rfl, rfl⟩
    · cases hnone
  | present => exact ⟨rfl, rfl⟩
  | finSent _ => exact absurd rfl (hop _)
  | @dataSent _ data _ _ _ =>
    exact ⟨sent_una K (c.loaded (tokenMem data) (BitVec.ofNat 32 data.length)) _,
      sent_nxt_plain (loaded_quiet ..)⟩

/-! ## Runs -/

/-- No connection the user closed refuses the acknowledgment of its FIN. -/
def FinAckTaken (tr : List (machine K).Event) (k : Core) : Prop :=
  ∀ q n xs c, SinceClose tr q n xs → k.conn q = some c → c.LeavesOnAck K

/-- Of a close of a connection in TCP_ESTABLISHED, or of one closed there before. -/
def ClosesInHalf (tr : List (machine K).Event) (e : (machine K).Event) : Prop :=
  ∀ c, (∃ x, e.input.op = .close x) → e.pre.conn (eventKey e) = some c →
    (c.tcpState = .established ∨ ∃ n xs, SinceClose tr (eventKey e) n xs) → c.NextInHalf

theorem finAckTaken_inHalf {tr : List (machine K).Event} {k : Core} (h : Machine.Run tr k) :
    FinAckTaken tr k ↔ ∀ q n xs c, SinceClose tr q n xs → k.conn q = some c → c.InHalf := by
  refine forall_congr' fun q => forall_congr' fun n => forall_congr' fun xs =>
    forall_congr' fun c => forall_congr' fun hs => forall_congr' fun hc => ?_
  obtain ⟨c', hc', hst⟩ := stateOf_eq.mp (sinceClose_finWait1 h hs).1
  cases hc.symm.trans hc'
  exact leavesOnAck_iff hst

theorem inHalf_close {e : (machine K).Event} (hrep : e.pre.Rep) {x : Quad} {c c' : Connection}
    (hx : e.input.op = .close x) (hc : e.pre.conn (eventKey e) = some c)
    (hc' : e.post.conn (eventKey e) = some c') : c'.InHalf ↔ c.NextInHalf := by
  have hslot := (event_slot e hrep).2
  rw [hc, hc', hx] at hslot
  obtain ⟨hu, hn⟩ := close_space hslot
  unfold Connection.InHalf Connection.NextInHalf
  rw [hu, hn]

theorem event_finAckTaken {tr : List (machine K).Event} {e : (machine K).Event}
    (hr : Machine.Run tr e.pre)
    (hI : ∀ q n xs c, SinceClose tr q n xs → e.pre.conn q = some c → c.InHalf) :
    (∀ q n xs c, SinceClose (tr ++ [e]) q n xs → e.post.conn q = some c → c.InHalf) ↔
      ClosesInHalf tr e := by
  have hrep := run_rep hr
  constructor
  · intro h c ⟨x, hx⟩ hc hwhen
    have hslot := (event_slot e hrep).2
    rw [hc, hx] at hslot
    obtain ⟨c', hc'⟩ : ∃ c', e.post.conn (eventKey e) = some c' := by
      generalize e.post.conn (eventKey e) = o at hslot
      generalize e.out = out at hslot
      cases hslot with
      | finSent _ => exact ⟨_, rfl⟩
    rw [← inHalf_close hrep hx hc hc']
    rcases hwhen with hst | ⟨n, xs, hs⟩
    · exact h _ _ [] c' (.start ⟨⟨x, hx⟩, rfl, c, hc, hst, rfl⟩) hc'
    · have hin : InTable (eventKey e) e := by
        unfold InTable
        rw [hc']
        exact Option.some_ne_none c'
      exact h _ n (xs ++ [e]) c' (hs.snoc hin) hc'
  · intro h q n xs c' hs hc'
    rcases Machine.since_snoc.mp hs with ⟨-, ⟨x, hx⟩, rfl, c, hc, hst, -⟩ | ⟨ys, -, hys, hin⟩
    · exact (inHalf_close hrep hx hc hc').mpr (h c ⟨x, hx⟩ hc (Or.inl hst))
    · obtain ⟨c, hc, hst⟩ := stateOf_eq.mp (sinceClose_finWait1 hr hys).1
      have hwas := hI q n ys c hys hc
      rcases event_at e hrep q with hsame | ⟨rfl, hslot⟩
      · cases hc'.symm.trans (hsame.trans hc)
        exact hwas
      · by_cases hcl : ∃ x, e.input.op = .close x
        · obtain ⟨x, hx⟩ := hcl
          exact (inHalf_close hrep hx hc hc').mpr (h c ⟨x, hx⟩ hc (Or.inr ⟨n, ys, hys⟩))
        · rw [hc, hc'] at hslot
          obtain ⟨hu, hn⟩ := finWait1_space hslot hst fun x hx => hcl ⟨x, hx⟩
          unfold Connection.InHalf at hwas ⊢
          rw [hu, hn]
          exact hwas

/-- In every run the acknowledgment of our FIN would be taken in every state after a
close, exactly if every close finds `snd.nxt` near enough to `snd.una`. -/
theorem fin_ack_taken_iff {tr : List (machine K).Event} {k : Core} (h : Machine.Run tr k) :
    Machine.Meets (fun tr₁ e => FinAckTaken (tr₁ ++ [e]) e.post) tr ↔
      Machine.Meets ClosesInHalf tr := by
  have step : ∀ (tr : List (machine K).Event) (e : (machine K).Event), Machine.Run tr e.pre →
      FinAckTaken tr e.pre → (FinAckTaken (tr ++ [e]) e.post ↔ ClosesInHalf tr e) := by
    intro tr e hr hI
    rw [finAckTaken_inHalf (Machine.run_snoc.mpr ⟨hr, rfl⟩)]
    exact event_finAckTaken hr ((finAckTaken_inHalf hr).mp hI)
  refine Machine.Run.meets_iff_inv (I := FinAckTaken) ?_ step ?_ h
  · intro k _ q n xs c ⟨ta, f, ht, _, _⟩
    simp at ht
  · intro tr e hr hI hD
    exact (step tr e hr hI).mpr hD

end

/-! ## On the host -/

theorem fin_ack_taken_iff_userClose : ∃ (tr : List (machine rfcCksum).Event) (k : Core),
    Machine.Run tr k ∧ k.stateOf peerQuad = some .finWait1 ∧
      (Machine.Meets (fun tr₁ e => FinAckTaken (tr₁ ++ [e]) e.post) tr ↔
        Machine.Meets ClosesInHalf tr) := by
  obtain ⟨tr, k, hr, hk⟩ := Machine.exists_run (host_init rfcCksum) (peerOpens ++ [userClose])
    (Q := fun r => r.2.stateOf peerQuad = some .finWait1) (by decide +kernel)
  exact ⟨tr, k, hr, of_decide_eq_true hk, fin_ack_taken_iff hr⟩

instance (c : Connection) : Decidable c.InHalf := inferInstanceAs (Decidable (_ < _))

/-- An acknowledgment number half the circle away is copied to `snd.nxt`, and the FIN
that is sent next can never be acknowledged. -/
theorem not_fin_ack_taken : ¬∀ (tr : List (machine rfcCksum).Event) (k : Core),
    Machine.Run tr k → Machine.Meets (fun tr₁ e => FinAckTaken (tr₁ ++ [e]) e.post) tr := by
  intro h
  obtain ⟨tr, k, hr, hQ⟩ := Machine.exists_run (host_init rfcCksum)
    (peerOpens ++ [recv rteTcpAckFlag 1 0x80000000 [], userClose])
    (Q := fun r => match r.1 with
      | [_, _, _, e] =>
        (∃ x, e.input.op = .close x) ∧ eventKey e = peerQuad ∧
          (e.pre.conn peerQuad).any (·.tcpState = .established) ∧
          (e.post.conn peerQuad).any fun c => c.tcpState = .finWait1 ∧ ¬c.InHalf
      | _ => false) (by decide +kernel)
  simp only at hQ
  split at hQ
  · rename_i a b d e
    obtain ⟨hop, hkey, hpre, hpost⟩ := of_decide_eq_true hQ
    obtain ⟨c, hc, hst⟩ := (Option.any_eq_true ..).mp hpre
    obtain ⟨c', hc', hbad⟩ := (Option.any_eq_true ..).mp hpost
    obtain ⟨hst', hfar⟩ := of_decide_eq_true hbad
    have hcl : ClosedByUser peerQuad c.sendSequenceSpace.nxt e :=
      ⟨hop, hkey, c, hc, of_decide_eq_true hst, rfl⟩
    have htaken := h _ k hr [a, b, d] e [] rfl peerQuad _ [] c' (.start (t := [a, b, d]) hcl) hc'
    exact hfar ((leavesOnAck_iff hst').mp htaken)
  · cases hQ

end TcpDpdk

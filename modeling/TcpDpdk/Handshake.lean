import TcpDpdk.Host

/-!
# Opening a connection

While a SYN is out, `snd.una` is the initial sequence number and `snd.nxt` the one
after it, so that the acknowledgment test of both opening states lets exactly two
numbers through: the acknowledgment of the SYN and the initial number itself. The
flags of the segment are not part of the test.
-/

namespace TcpDpdk

def Connection.Opening (c : Connection) : Prop := c.tcpState = .synSent ∨ c.tcpState = .synRecv

def Connection.SynOut (c : Connection) : Prop :=
  c.Opening → c.sendSequenceSpace.una = iss ∧ c.sendSequenceSpace.nxt = iss + 1

theorem not_opening (st : TcpState) {c : Connection} (h : c.tcpState = st)
    (hst : st ≠ .synSent ∧ st ≠ .synRecv) : ¬c.Opening := by
  intro ho
  subst h
  rcases ho with ho | ho
  · exact hst.1 ho
  · exact hst.2 ho

theorem ackCheck_synOut {c : Connection} (h : c.SynOut) (ho : c.Opening) (a : BitVec 32) :
    ackCheck c a = true ↔ a = iss ∨ a = iss + 1 := by
  obtain ⟨hu, hn⟩ := h ho
  have h1 : Circle.fwd iss (iss + 1) = 1 := Circle.fwd_one (by decide) iss
  unfold ackCheck
  rw [hu, hn, isBetweenWrapped_iff (by rw [h1]; decide), h1]
  constructor
  · intro hle
    rcases Nat.le_one_iff_eq_zero_or_eq_one.mp hle with h0 | h0
    · exact Or.inl (Circle.fwd_eq_zero.mp h0)
    · exact Or.inr (Circle.fwd_inj (h0.trans h1.symm))
  · rintro (rfl | rfl)
    · rw [Circle.fwd_self]; exact Nat.zero_le _
    · exact Nat.le_of_eq h1

section
variable {K : RteCksum}

theorem rx_synOut {env : Env} {t : Tcp} {c : Connection} {s : Seg} {o : Option Connection} {out : Out}
    (h : Rx K env t c s o out) (hq : c.Quiet) (hc : c.SynOut) : ∀ c', o = some c' → c'.SynOut := by
  intro c' hc'
  cases h with
  | ignored _ => cases hc'; exact hc
  | synAgain hst _ _ _ =>
    cases hc'
    intro _
    rw [sent_una, unsent_nxt hq]
    exact hc (Or.inr hst)
  | synAcked _ _ _ =>
    cases hc'
    exact fun ho => absurd ho (not_opening .established rfl (by decide))
  | @synAnswered d _ hst hd _ =>
    cases hc'
    intro ho
    rw [sent_una, sent_nxt_plain (synAnswered_quiet d s)]
    rcases hd with ⟨-, rfl⟩ | ⟨-, rfl⟩
    · exact absurd ho (not_opening .established (sent_tcpState ..) (by decide))
    · exact hc (Or.inl hst)
  | finAnswered _ _ _ _ =>
    cases hc'
    exact fun ho => absurd ho (not_opening .lastAck rfl (by decide))
  | acked hst _ _ _ =>
    cases hc'
    exact fun ho => absurd ho (not_opening .established hst (by decide))
  | dataAnswered hst _ _ _ _ =>
    cases hc'
    exact fun ho => absurd ho (not_opening .established ((sent_tcpState ..).trans hst) (by decide))
  | finAcked _ _ _ _ => cases hc'
  | finAcked2 _ _ _ => cases hc'
  | closed _ => cases hc'

theorem slot_synOut {env : Env} {t : Tcp} {op : Op} {o o' : Option Connection} {out : Out}
    (h : Slot K env t op o o' out) (hP : ∀ c, o = some c → c.Quiet ∧ c.SynOut) :
    ∀ c, o' = some c → c.Quiet ∧ c.SynOut := by
  intro c' hc'
  refine ⟨slot_quiet h (fun c hc => (hP c hc).1) c' hc', ?_⟩
  cases h with
  | dropped _ => exact (hP c' hc').2
  | unknown _ _ => cases hc'
  | @opened _ s g _ _ _ _ _ _ ho =>
    rcases ho with rfl | rfl
    · cases hc'
      exact fun _ => ⟨sent_una .., sent_nxt_flags (c := listenConnection g s)
        (f := rteTcpSynFlag ||| rteTcpAckFlag) rfl (by decide)⟩
    · cases hc'
  | handled _ h => exact rx_synOut h (hP _ rfl).1 (hP _ rfl).2 c' hc'
  | connected _ _ ho =>
    rcases ho with rfl | rfl
    · cases hc'
      exact fun _ => ⟨sent_una .., sent_nxt_flags (f := rteTcpSynFlag) rfl (by decide)⟩
    · cases hc'
  | present => exact (hP c' hc').2
  | noClose => cases hc'
  | noSend => cases hc'
  | finSent _ =>
    cases hc'
    exact fun ho => absurd ho (not_opening .finWait1 rfl (by decide))
  | @dataSent _ data c _ _ =>
    cases hc'
    intro ho
    rw [sent_una, sent_nxt_plain (loaded_quiet ..)]
    refine (hP c rfl).2 ?_
    rwa [Connection.Opening, sent_tcpState] at ho

theorem run_synOut {tr : List (machine K).Event} {k : Core} (h : Machine.Run tr k) :
    ∀ q c, k.conn q = some c → c.SynOut :=
  fun q c hc => (run_conn slot_synOut h q c hc).2

/-! ## Becoming established -/

theorem Connection.ReadsAck.opening {c : Connection} {s : Seg} (h : c.ReadsAck s) : c.Opening := by
  rcases h with h | h
  · exact Or.inl h
  · exact Or.inr h.1

theorem rx_establishes {env : Env} {t : Tcp} {c : Connection} {s : Seg} {o : Option Connection}
    {out : Out} (h : Rx K env t c s o out) (hr : c.ReadsAck s) (ha : ackCheck c s.ackn = true) :
    ∃ c', o = some c' ∧ c'.tcpState = .established := by
  rcases hr with hst | ⟨hst, hc⟩
  · obtain ⟨d, frames, hd, ho, -⟩ := h.of_synSent hst
    rcases hd with ⟨-, rfl⟩ | ⟨hf, -⟩
    · exact ⟨_, ho, sent_tcpState ..⟩
    · cases hf.symm.trans ha
  · cases h with
    | ignored hacc =>
      unfold Connection.accepts at hacc
      rw [hst] at hacc
      simp only [hc, ha, ite_true] at hacc
      cases hacc
    | synAcked _ _ _ => exact ⟨_, rfl, rfl⟩
    | synAgain _ hc' _ _ => cases hc.symm.trans hc'
    | synAnswered h _ _ => cases hst.symm.trans h
    | finAnswered h _ _ _ => cases hst.symm.trans h
    | acked h _ _ _ => cases hst.symm.trans h
    | dataAnswered h _ _ _ _ => cases hst.symm.trans h
    | finAcked h _ _ _ => cases hst.symm.trans h
    | finAcked2 h _ _ => cases hst.symm.trans h
    | closed h => cases hst.symm.trans h

theorem moves_established {env : Env} {t : Tcp} {op : Op} {o : Option Connection}
    (h : Moves env t op o .established) (ho : o.map (·.tcpState) ≠ some .established) :
    ∃ s c, opSegment t.nic env.pad op = some s ∧ o = some c ∧ c.ReadsAck s ∧
      ackCheck c s.ackn = true := by
  generalize hst : TcpState.established = st at h
  cases h with
  | stays => exact absurd (congrArg some hst.symm) ho
  | synAcked hs hr ha => exact ⟨_, _, hs, rfl, hr, ha⟩
  | listened => cases hst
  | connected => cases hst
  | finReceived _ _ _ => cases hst
  | closed => cases hst

/-! ## Establishment and the acknowledgment of our SYN -/

/-- What RFC 793 asks of the segment that completes the handshake. -/
def Seg.AcksSyn (s : Seg) (c : Connection) : Prop :=
  s.tcpHdr.has rteTcpAckFlag = true ∧ s.tcpHdr.has rteTcpRstFlag = false ∧ s.ackn = iss + 1 ∧
    (c.tcpState = .synSent → s.tcpHdr.has rteTcpSynFlag = true)

/-- Whatever became established in this step did so on the acknowledgment of our SYN. -/
def EstablishedByAck (e : (machine K).Event) : Prop :=
  ∀ q c', e.post.conn q = some c' → c'.tcpState = .established →
    (e.pre.conn q).map (·.tcpState) ≠ some .established →
    ∃ s c, segOf e = some s ∧ s.q = q ∧ e.pre.conn q = some c ∧ s.AcksSyn c

/-- A segment whose raw acknowledgment number is that of our SYN or one less, and
whose handler gets to the test of that number, does acknowledge the SYN. -/
def AnswersSyn (e : (machine K).Event) : Prop :=
  ∀ s c, segOf e = some s → e.pre.conn s.q = some c → c.ReadsAck s →
    s.ackn = iss ∨ s.ackn = iss + 1 → s.AcksSyn c

theorem event_established (e : (machine K).Event) (hrep : e.pre.Rep)
    (hout : ∀ q c, e.pre.conn q = some c → c.SynOut) : EstablishedByAck e ↔ AnswersSyn e := by
  constructor
  · intro h s c hs hc hr hn
    have ha : ackCheck c s.ackn = true := (ackCheck_synOut (hout _ _ hc) hr.opening _).mpr hn
    obtain ⟨c', hc', hest⟩ := rx_establishes (event_rx hrep hs hc) hr ha
    have hne : (e.pre.conn s.q).map (·.tcpState) ≠ some .established := by
      rw [hc, Option.map_some]
      rcases hr.opening with h | h <;> rw [h] <;> decide
    obtain ⟨s', d, hs', -, hd, hack⟩ := h s.q c' hc' hest hne
    cases hs.symm.trans hs'
    cases hc.symm.trans hd
    exact hack
  · intro h q c' hc' hest hne
    rcases event_at e hrep q with hsame | ⟨rfl, hslot⟩
    · rw [← hsame, hc', Option.map_some, hest] at hne
      exact absurd rfl hne
    · obtain ⟨s, c, hs, hc, hr, ha⟩ := moves_established (hest ▸ slot_moves hslot hc') hne
      have hs : segOf e = some s := hs
      refine ⟨s, c, hs, (segOf_key hs).symm, hc, h s c hs (segOf_key hs ▸ hc) hr ?_⟩
      exact (ackCheck_synOut (hout _ _ hc) hr.opening _).mp ha

/-- In every run, connections are established on the acknowledgment of our SYN
only, exactly if every segment that passes for one is one. -/
theorem established_by_ack_iff {tr : List (machine K).Event} {k : Core} (h : Machine.Run tr k) :
    (∀ e ∈ tr, EstablishedByAck e) ↔ ∀ e ∈ tr, AnswersSyn e := by
  have step : ∀ e ∈ tr, (EstablishedByAck e ↔ AnswersSyn e) := by
    intro e he
    obtain ⟨tr₁, hr⟩ := h.reached he
    exact event_established e (run_rep hr) (run_synOut hr)
  constructor
  · intro hall e he; exact (step e he).mp (hall e he)
  · intro hall e he; exact (step e he).mpr (hall e he)

end

theorem established_by_ack_iff_peerOpens : ∃ (tr : List (machine rfcCksum).Event) (k : Core),
    Machine.Run tr k ∧ (k.conn peerQuad).map (·.tcpState) = some .established ∧
      ((∀ e ∈ tr, EstablishedByAck e) ↔ ∀ e ∈ tr, AnswersSyn e) := by
  obtain ⟨tr, k, hr, hk⟩ := Machine.exists_run (host_init rfcCksum) peerOpens
    (Q := fun r => (r.2.conn peerQuad).map (·.tcpState) = some .established) (by decide +kernel)
  exact ⟨tr, k, hr, of_decide_eq_true hk, established_by_ack_iff hr⟩

/-- A SYN repeated with a byte of data establishes the connection: its unused
acknowledgment field reads zero, the initial sequence number. -/
theorem not_established_by_ack : ¬∀ (tr : List (machine rfcCksum).Event) (k : Core),
    Machine.Run tr k → ∀ e ∈ tr, EstablishedByAck e := by
  intro h
  obtain ⟨tr, k, hr, e, he, hQ⟩ := Machine.exists_event (host_init rfcCksum)
    [recv rteTcpSynFlag 0 0 [], recv rteTcpSynFlag 0 0 [0x41]]
    (Q := fun e => (e.pre.conn peerQuad).map (·.tcpState) ≠ some .established ∧
      (e.post.conn peerQuad).map (·.tcpState) = some .established ∧
      (segOf e).all (fun s => s.tcpHdr.has rteTcpAckFlag = false)) (by decide +kernel)
  obtain ⟨hpre, hpost, hseg⟩ := of_decide_eq_true hQ
  obtain ⟨c', hc', hst⟩ := Option.map_eq_some_iff.mp hpost
  obtain ⟨s, c, hs, -, -, hack, -⟩ := h tr k hr e he peerQuad c' hc' hst hpre
  rw [hs, Option.all_some, decide_eq_true_eq] at hseg
  cases hseg.symm.trans hack

end TcpDpdk

import TcpDpdk.RecvSpace

/-!
# Closing a connection

Two ways out of the table. Our own close waits in TCP_FIN_WAIT1 and is over with
the first segment that passes the two tests there; a close of the peer's is
answered with a FIN and is over, in TCP_LAST_ACK, with the next segment whatever
it is, unless the user closes too. Both are histories: what counts is what has
happened since the FIN went out.
-/

namespace TcpDpdk

section
variable {K : RteCksum}

/-! ## TCP_FIN_WAIT1 and TCP_LAST_ACK -/

theorem finWait1_stays {e : (machine K).Event} (h : e.pre.Rep) {q : Quad} (hin : InTable q e)
    (hst : e.pre.stateOf q = some .finWait1) : e.post.stateOf q = some .finWait1 := by
  obtain ⟨c', hc'⟩ := Option.ne_none_iff_exists'.mp hin
  rcases event_at e h q with hsame | ⟨-, hslot⟩
  · unfold Core.stateOf
    rw [hsame]
    exact hst
  · refine stateOf_eq.mpr ⟨c', hc', ?_⟩
    obtain ⟨c, hc, hst⟩ := stateOf_eq.mp hst
    have hm := slot_moves hslot hc'
    rw [hc] at hm
    generalize c'.tcpState = st at hm ⊢
    generalize e.input.op = op at hm
    cases hm with
    | stays => exact hst
    | synAcked _ hr _ => rcases hr with h | ⟨h, -⟩ <;> cases hst.symm.trans h
    | finReceived _ h _ => cases hst.symm.trans h
    | closed => rfl

def Connection.TakesAck (c : Connection) (s : Seg) : Prop :=
  segmentCheck c s.size s.seq = true ∧ ackCheck c s.ackn = true

theorem accepts_finWait1 {c : Connection} {s : Seg} (hst : c.tcpState = .finWait1) :
    c.accepts s = true ↔ c.TakesAck s := by
  unfold Connection.accepts Connection.TakesAck
  rw [hst]
  exact Bool.and_eq_true_iff

theorem event_finWait1 {e : (machine K).Event} (h : e.pre.Rep) {s : Seg} {c : Connection}
    (hs : segOf e = some s) (hc : e.pre.conn s.q = some c) (hst : c.tcpState = .finWait1) :
    e.post.conn s.q = none ↔ c.TakesAck s := by
  rcases (event_rx h hs hc).of_finWait1 hst with ⟨ha, ho⟩ | ⟨hsc, hac, ho⟩
  · rw [ho]
    refine iff_of_false (Option.some_ne_none c) fun ht => ?_
    cases ha.symm.trans ((accepts_finWait1 hst).mpr ht)
  · exact iff_of_true ho ⟨hsc, hac⟩

theorem event_lastAck {e : (machine K).Event} (h : e.pre.Rep) {s : Seg} {c : Connection}
    (hs : segOf e = some s) (hc : e.pre.conn s.q = some c) (hst : c.tcpState = .lastAck) :
    e.post.conn s.q = none := (event_rx h hs hc).of_lastAck hst

theorem moves_lastAck {env : Env} {t : Tcp} {op : Op} {o : Option Connection}
    (h : Moves env t op o .lastAck) (ho : o.map (·.tcpState) ≠ some .lastAck) :
    ∃ s c, opSegment t.nic env.pad op = some s ∧ o = some c ∧ c.tcpState = .established ∧
      s.tcpHdr.has rteTcpFinFlag = true := by
  generalize hst : TcpState.lastAck = st at h
  cases h with
  | stays => exact absurd (congrArg some hst.symm) ho
  | finReceived hs hest hf => exact ⟨_, _, hs, rfl, hest, hf⟩
  | listened => cases hst
  | connected => cases hst
  | synAcked _ _ _ => cases hst
  | closed => cases hst

/-! ## The peer's close -/

/-- A FIN that arrives in TCP_ESTABLISHED is answered with our own, after which
`snd.nxt` is `n` and the connection is in TCP_LAST_ACK. -/
def AnswersFin (q : Quad) (n : BitVec 32) (e : (machine K).Event) : Prop :=
  ∃ s c, segOf e = some s ∧ s.q = q ∧ s.tcpHdr.has rteTcpFinFlag = true ∧
    e.pre.stateOf q = some .established ∧ e.post.conn q = some c ∧ c.tcpState = .lastAck ∧
    c.sendSequenceSpace.nxt = n

/-- The connection came into TCP_LAST_ACK, `snd.nxt` was `n` when its FIN had been sent,
and it has been in the table since. -/
def FinSentBefore (tr : List (machine K).Event) (q : Quad) (n : BitVec 32) : Prop :=
  ∃ xs, Machine.Since (AnswersFin q n) (InTable q) tr xs

/-- What becomes of a connection that came into TCP_LAST_ACK: the command close takes it
to TCP_FIN_WAIT1, and there it stays. -/
def Connection.PastFin (c : Connection) (n : BitVec 32) : Prop :=
  c.tcpState = .lastAck ∧ c.sendSequenceSpace.nxt = n ∨ c.tcpState = .finWait1

theorem slot_pastFin {env : Env} {t : Tcp} {op : Op} {c c' : Connection} {out : Out} {n : BitVec 32}
    (h : Slot K env t op (some c) (some c') out) (hc : c.PastFin n) : c'.PastFin n := by
  cases h with
  | dropped _ => exact hc
  | handled _ hrx =>
    rcases hc with ⟨hst, -⟩ | hst
    · cases hrx.of_lastAck hst
    · rcases hrx.of_finWait1 hst with ⟨-, ho⟩ | ⟨-, -, ho⟩
      · cases ho
        exact Or.inr hst
      · cases ho
  | present => exact hc
  | finSent _ => exact Or.inr rfl
  | dataSent _ =>
    unfold Connection.PastFin
    rw [sent_tcpState, sent_nxt_plain (loaded_quiet ..)]
    exact hc

theorem finSentBefore_conn {tr : List (machine K).Event} {k : Core} (h : Machine.Run tr k) {q : Quad}
    {n : BitVec 32} (hb : FinSentBefore tr q n) : ∃ c, k.conn q = some c ∧ c.PastFin n := by
  obtain ⟨xs, hs⟩ := hb
  refine Machine.Run.since (J := fun _ k => ∃ c, k.conn q = some c ∧ c.PastFin n) ?_ ?_ h hs
  · rintro tr f - ⟨s, c, -, -, -, -, hc, hst, hn⟩
    exact ⟨c, hc, Or.inl ⟨hst, hn⟩⟩
  · rintro tr xs e hr hin ⟨c, hc, hpast⟩
    obtain ⟨c', hc'⟩ := Option.ne_none_iff_exists'.mp hin
    refine ⟨c', hc', ?_⟩
    rcases event_at e (run_rep hr) q with hsame | ⟨-, hslot⟩
    · cases hc'.symm.trans (hsame.trans hc)
      exact hpast
    · rw [hc, hc'] at hslot
      exact slot_pastFin hslot hpast

/-- Every connection in TCP_LAST_ACK has got there by a FIN of the peer's, and its
`snd.nxt` is still the one after our FIN. -/
theorem lastAck_finSentBefore {tr : List (machine K).Event} {k : Core} (h : Machine.Run tr k)
    (q : Quad) : ∀ c, k.conn q = some c → c.tcpState = .lastAck →
      FinSentBefore tr q c.sendSequenceSpace.nxt := by
  refine Machine.Run.induct (P := fun tr k => ∀ c, k.conn q = some c → c.tcpState = .lastAck →
    FinSentBefore tr q c.sendSequenceSpace.nxt) ?_ ?_ h
  · rintro _ ⟨nic, last, rfl⟩ c hc -
    cases hc
  · rintro tr e hr ih c' hc' hst'
    have hin : InTable q e := by
      unfold InTable
      rw [hc']
      exact Option.some_ne_none c'
    rcases event_at e (run_rep hr) q with hsame | ⟨rfl, hslot⟩
    · obtain ⟨xs, hs⟩ := ih c' (hsame.symm.trans hc') hst'
      exact ⟨_, hs.snoc hin⟩
    · by_cases hwas : e.pre.stateOf (eventKey e) = some .lastAck
      · obtain ⟨c, hc, hst⟩ := stateOf_eq.mp hwas
        rw [hc, hc'] at hslot
        rcases slot_pastFin hslot (Or.inl ⟨hst, rfl⟩) with ⟨-, hn⟩ | hfw
        · obtain ⟨xs, hs⟩ := ih c hc hst
          rw [hn]
          exact ⟨_, hs.snoc hin⟩
        · cases hst'.symm.trans hfw
      · obtain ⟨s, c, hs, hc, hst, hf⟩ := moves_lastAck (hst' ▸ slot_moves hslot hc') hwas
        exact ⟨[], .start ⟨s, c', hs, (segOf_key hs).symm, hf, stateOf_eq.mpr ⟨c, hc, hst⟩, hc', hst',
          rfl⟩⟩

def Seg.AcksUpTo (s : Seg) (c : Connection) (n : BitVec 32) : Prop :=
  s.tcpHdr.has rteTcpAckFlag = true ∧ s.InWindow c ∧ s.ackn = n

/-- Of the connection whose FIN took `snd.nxt` to `n`: only a segment that
acknowledges the FIN removes it, any other leaves it in TCP_LAST_ACK. -/
def ClosesOnAck (q : Quad) (n : BitVec 32) (e : (machine K).Event) : Prop :=
  ∀ s c, segOf e = some s → s.q = q → e.pre.conn q = some c →
    (e.post.conn q = none → s.AcksUpTo c n) ∧
      (¬s.AcksUpTo c n → e.post.stateOf q = some .lastAck)

/-- What arrives for a connection that came into TCP_LAST_ACK, be it closed by the user
since or not, acknowledges its FIN. -/
def OnlyAcks (tr : List (machine K).Event) (e : (machine K).Event) : Prop :=
  ∀ q n, FinSentBefore tr q n → ∀ s c, segOf e = some s → s.q = q → e.pre.conn q = some c →
    s.AcksUpTo c n

theorem event_pastFin {e : (machine K).Event} (h : e.pre.Rep) {s : Seg} {c : Connection}
    {n : BitVec 32} (hs : segOf e = some s) (hc : e.pre.conn s.q = some c) (hpast : c.PastFin n) :
    e.post.stateOf s.q ≠ some .lastAck := by
  intro hst'
  obtain ⟨c', hc', hlast⟩ := stateOf_eq.mp hst'
  rcases hpast with ⟨hst, -⟩ | hst
  · cases hc'.symm.trans (event_lastAck h hs hc hst)
  · have hin : InTable s.q e := by
      unfold InTable
      rw [hc']
      exact Option.some_ne_none c'
    cases hst'.symm.trans (finWait1_stays h hin (stateOf_eq.mpr ⟨c, hc, hst⟩))

/-- In every run a passive close completes on the acknowledgment of our FIN only,
exactly if nothing else arrives after the FIN has been sent. -/
theorem closesOnAck_iff {tr : List (machine K).Event} {k : Core} (h : Machine.Run tr k) :
    Machine.Meets (fun tr₁ e => ∀ q n, FinSentBefore tr₁ q n → ClosesOnAck q n e) tr ↔
      Machine.Meets OnlyAcks tr := by
  refine Machine.Run.meets_iff (fun tr₁ e hr => ?_) h
  refine forall_congr' fun q => forall_congr' fun n => forall_congr' fun hb => ?_
  constructor
  · intro hall s c hs hq hc
    subst hq
    obtain ⟨d, hd, hpast⟩ := finSentBefore_conn hr hb
    by_contra hno
    exact event_pastFin (run_rep hr) hs hd hpast ((hall s c hs rfl hc).2 hno)
  · intro hacks s c hs hq hc
    have hok := hacks s c hs hq hc
    exact ⟨fun _ => hok, fun hno => absurd hok hno⟩

/-! ## The user's close -/

instance (op : Op) : Decidable (∃ x, op = .close x) :=
  match op with
  | .close x => isTrue ⟨x, rfl⟩
  | .rx _ => isFalse fun ⟨_, h⟩ => nomatch h
  | .connect _ _ _ => isFalse fun ⟨_, h⟩ => nomatch h
  | .send _ _ => isFalse fun ⟨_, h⟩ => nomatch h

/-- The user closes a connection in TCP_ESTABLISHED and the FIN is sent with the
sequence number `n`. -/
def ClosedByUser (q : Quad) (n : BitVec 32) (e : (machine K).Event) : Prop :=
  (∃ x, e.input.op = .close x) ∧ eventKey e = q ∧
    ∃ c, e.pre.conn q = some c ∧ c.tcpState = .established ∧ c.sendSequenceSpace.nxt = n

abbrev SinceClose (tr : List (machine K).Event) (q : Quad) (n : BitVec 32)
    (xs : List (machine K).Event) : Prop := Machine.Since (ClosedByUser q n) (InTable q) tr xs

theorem closedByUser_finWait1 {e : (machine K).Event} (h : e.pre.Rep) {q : Quad} {n : BitVec 32}
    (hcl : ClosedByUser q n e) : e.post.stateOf q = some .finWait1 := by
  obtain ⟨⟨x, hx⟩, rfl, c, hc, -, -⟩ := hcl
  have hslot := (event_slot e h).2
  rw [hc, hx] at hslot
  rw [stateOf_eq]
  generalize e.post.conn (eventKey e) = o at hslot ⊢
  generalize e.out = out at hslot
  cases hslot with
  | finSent _ => exact ⟨_, rfl, rfl⟩

theorem event_removes {e : (machine K).Event} (h : e.pre.Rep) {q : Quad} {c : Connection}
    (hc : e.pre.conn q = some c) (hn : e.post.conn q = none) : ∃ s, segOf e = some s ∧ s.q = q := by
  rcases event_at e h q with hsame | ⟨rfl, hslot⟩
  · cases hn.symm.trans (hsame.trans hc)
  · suffices hsome : ∃ s, segOf e = some s by
      obtain ⟨s, hs⟩ := hsome
      exact ⟨s, hs, (segOf_key hs).symm⟩
    unfold segOf
    rw [hc, hn] at hslot
    generalize e.input.op = op at hslot ⊢
    generalize e.out = out at hslot
    cases hslot with
    | handled hs _ => exact ⟨_, hs⟩

def TookAck (q : Quad) (a : BitVec 32) (e : (machine K).Event) : Prop :=
  ∃ s c, segOf e = some s ∧ s.q = q ∧ e.pre.conn q = some c ∧ c.accepts s = true ∧ s.ackn = a

def GotFin (q : Quad) (e : (machine K).Event) : Prop :=
  ∃ s, segOf e = some s ∧ s.q = q ∧ s.tcpHdr.has rteTcpFinFlag = true

/-- From the user's close on the connection is in TCP_FIN_WAIT1 for as long as it is
in the table, and no acknowledgment has been taken. -/
theorem sinceClose_finWait1 {tr xs : List (machine K).Event} {k : Core} (h : Machine.Run tr k)
    {q : Quad} {n : BitVec 32} (hs : SinceClose tr q n xs) :
    k.stateOf q = some .finWait1 ∧ ∀ x ∈ xs, ∀ a, ¬TookAck q a x := by
  refine Machine.Run.since (J := fun xs k => k.stateOf q = some .finWait1 ∧
    ∀ x ∈ xs, ∀ a, ¬TookAck q a x) ?_ ?_ h hs
  · intro tr f hr hcl
    exact ⟨closedByUser_finWait1 (run_rep hr) hcl, fun x hx => nomatch hx⟩
  · intro tr xs e hr hin ih
    refine ⟨finWait1_stays (run_rep hr) hin ih.1, fun x hx a hack => ?_⟩
    rcases List.mem_append.mp hx with hx | hx
    · exact ih.2 x hx a hack
    · rw [List.mem_singleton] at hx
      subst hx
      obtain ⟨s, c, hseg, rfl, hc, hacc, -⟩ := hack
      obtain ⟨c', hc', hst⟩ := stateOf_eq.mp ih.1
      cases hc.symm.trans hc'
      exact hin ((event_finWait1 (run_rep hr) hseg hc hst).mpr ((accepts_finWait1 hst).mp hacc))

/-- A connection the user closed is removed only after an acknowledgment of its
FIN, which went out with the number `n`, and a FIN of the peer's. -/
def RemovedWhenClosed (tr : List (machine K).Event) (e : (machine K).Event) : Prop :=
  ∀ q n xs, SinceClose tr q n xs → e.post.conn q = none →
    (∃ x ∈ xs ++ [e], TookAck q (n + 1) x) ∧ ∃ x ∈ xs ++ [e], GotFin q x

/-- A segment that passes both tests after the user's close acknowledges the FIN,
and the peer's own FIN is in it or has been received since. -/
def TakenWhenClosed (tr : List (machine K).Event) (e : (machine K).Event) : Prop :=
  ∀ q n xs, SinceClose tr q n xs → ∀ s c, segOf e = some s → s.q = q → e.pre.conn q = some c →
    c.TakesAck s → s.ackn = n + 1 ∧
      (s.tcpHdr.has rteTcpFinFlag = true ∨ ∃ x ∈ xs, GotFin q x)

theorem removedWhenClosed_iff {tr : List (machine K).Event} {e : (machine K).Event}
    (h : Machine.Run tr e.pre) : RemovedWhenClosed tr e ↔ TakenWhenClosed tr e := by
  constructor
  · intro hall q n xs hsince s c hs hq hc ht
    subst hq
    obtain ⟨hfw, hnot⟩ := sinceClose_finWait1 h hsince
    obtain ⟨c', hc', hst⟩ := stateOf_eq.mp hfw
    cases hc.symm.trans hc'
    have hn := (event_finWait1 (run_rep h) hs hc hst).mpr ht
    obtain ⟨⟨x, hx, hack⟩, y, hy, hfin⟩ := hall _ n xs hsince hn
    constructor
    · rcases List.mem_append.mp hx with hx | hx
      · exact absurd hack (hnot x hx _)
      · rw [List.mem_singleton] at hx
        subst hx
        obtain ⟨s', -, hs', -, -, -, ha⟩ := hack
        cases hs.symm.trans hs'
        exact ha
    · rcases List.mem_append.mp hy with hy | hy
      · exact Or.inr ⟨y, hy, hfin⟩
      · rw [List.mem_singleton] at hy
        subst hy
        obtain ⟨s', hs', -, hf⟩ := hfin
        cases hs.symm.trans hs'
        exact Or.inl hf
  · intro hall q n xs hsince hn
    obtain ⟨c, hc, hst⟩ := stateOf_eq.mp (sinceClose_finWait1 h hsince).1
    obtain ⟨s, hs, rfl⟩ := event_removes (run_rep h) hc hn
    have ht := (event_finWait1 (run_rep h) hs hc hst).mp hn
    obtain ⟨ha, hf⟩ := hall _ n xs hsince s c hs rfl hc ht
    refine ⟨⟨e, by simp, s, c, hs, rfl, hc, (accepts_finWait1 hst).mpr ht, ha⟩, ?_⟩
    rcases hf with hf | ⟨x, hx, hfin⟩
    · exact ⟨e, by simp, s, hs, rfl, hf⟩
    · exact ⟨x, List.mem_append_left _ hx, hfin⟩

/-- In every run an active close completes only after both directions are closed,
exactly if no other segment passes the tests of TCP_FIN_WAIT1. -/
theorem removedWhenClosed_run_iff {tr : List (machine K).Event} {k : Core} (h : Machine.Run tr k) :
    Machine.Meets RemovedWhenClosed tr ↔ Machine.Meets TakenWhenClosed tr :=
  Machine.Run.meets_iff (fun _ _ hr => removedWhenClosed_iff hr) h

end

/-! ## On the host -/

def peerCloses : List Input :=
  peerOpens ++ [recv (rteTcpFinFlag ||| rteTcpAckFlag) 1 1 []]

theorem closesOnAck_iff_peerCloses : ∃ (tr : List (machine rfcCksum).Event) (k : Core),
    Machine.Run tr k ∧ k.stateOf peerQuad = some .lastAck ∧
      (Machine.Meets (fun tr₁ e => ∀ q n, FinSentBefore tr₁ q n → ClosesOnAck q n e) tr ↔
        Machine.Meets OnlyAcks tr) := by
  obtain ⟨tr, k, hr, hk⟩ := Machine.exists_run (host_init rfcCksum) peerCloses
    (Q := fun r => r.2.stateOf peerQuad = some .lastAck) (by decide +kernel)
  exact ⟨tr, k, hr, of_decide_eq_true hk, closesOnAck_iff hr⟩

theorem not_closesOnAck : ¬∀ (tr : List (machine rfcCksum).Event) (k : Core), Machine.Run tr k →
    Machine.Meets (fun tr₁ e => ∀ q n, FinSentBefore tr₁ q n → ClosesOnAck q n e) tr := by
  intro h
  obtain ⟨tr, k, hr, e, he, hQ⟩ := Machine.exists_event (host_init rfcCksum)
    (peerCloses ++ [recv (rteTcpFinFlag ||| rteTcpAckFlag) 1 1 []])
    (Q := fun e => (e.pre.conn peerQuad).any (fun c => c.tcpState = .lastAck ∧
      (segOf e).any (fun s => s.q = peerQuad ∧ s.ackn ≠ c.sendSequenceSpace.nxt)) ∧
        (e.post.conn peerQuad).isNone) (by decide +kernel)
  obtain ⟨hpre, hpost⟩ := of_decide_eq_true hQ
  obtain ⟨c, hc, hpre⟩ := (Option.any_eq_true ..).mp hpre
  obtain ⟨hst, hseg⟩ := of_decide_eq_true hpre
  obtain ⟨s, hs, hseg⟩ := (Option.any_eq_true ..).mp hseg
  obtain ⟨hq, hne⟩ := of_decide_eq_true hseg
  obtain ⟨tr₁, tr₂, rfl⟩ := List.append_of_mem he
  have hb := lastAck_finSentBefore (Machine.run_at hr).1 peerQuad c hc hst
  have hcl := (h _ k hr).at peerQuad _ hb s c hs hq hc
  exact hne (hcl.1 (Option.isNone_iff_eq_none.mp hpost)).2.2

theorem removedWhenClosed_run_iff_userClose : ∃ (tr : List (machine rfcCksum).Event) (k : Core),
    Machine.Run tr k ∧ k.stateOf peerQuad = some .finWait1 ∧
      (Machine.Meets RemovedWhenClosed tr ↔ Machine.Meets TakenWhenClosed tr) := by
  obtain ⟨tr, k, hr, hk⟩ := Machine.exists_run (host_init rfcCksum) (peerOpens ++ [userClose])
    (Q := fun r => r.2.stateOf peerQuad = some .finWait1) (by decide +kernel)
  exact ⟨tr, k, hr, of_decide_eq_true hk, removedWhenClosed_run_iff hr⟩

/-- An acknowledgment that is older than the FIN removes the connection, and the
peer has sent no FIN at all. -/
theorem not_removedWhenClosed : ¬∀ (tr : List (machine rfcCksum).Event) (k : Core),
    Machine.Run tr k → Machine.Meets RemovedWhenClosed tr := by
  intro h
  obtain ⟨tr, k, hr, hQ⟩ := Machine.exists_run (host_init rfcCksum)
    (peerOpens ++ [userClose, recv rteTcpAckFlag 1 1 []])
    (Q := fun r => match r.1 with
      | [_, _, f, e] =>
        (∃ x, f.input.op = .close x) ∧ eventKey f = peerQuad ∧
          (f.pre.conn peerQuad).any (·.tcpState = .established) ∧
          (e.post.conn peerQuad).isNone ∧
          (segOf e).all (fun s => s.tcpHdr.has rteTcpFinFlag = false)
      | _ => false) (by decide +kernel)
  simp only at hQ
  split at hQ
  · rename_i a b f e
    obtain ⟨hop, hkey, hpre, hpost, hseg⟩ := of_decide_eq_true hQ
    obtain ⟨c, hc, hst⟩ := (Option.any_eq_true ..).mp hpre
    have hcl : ClosedByUser peerQuad c.sendSequenceSpace.nxt f :=
      ⟨hop, hkey, c, hc, of_decide_eq_true hst, rfl⟩
    have hsince : SinceClose [a, b, f] peerQuad c.sendSequenceSpace.nxt [] := .start (t := [a, b]) hcl
    have hrem := h _ k hr [a, b, f] e [] rfl peerQuad _ [] hsince (Option.isNone_iff_eq_none.mp hpost)
    obtain ⟨-, x, hx, s, hs, -, hf⟩ := hrem
    obtain rfl : x = e := by simpa using hx
    rw [hs, Option.all_some, decide_eq_true_eq] at hseg
    cases hseg.symm.trans hf
  · cases hQ

end TcpDpdk

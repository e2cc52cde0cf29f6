import TcpDpdk.Handshake

/-!
# The send space

`snd.una` is to stay behind `snd.nxt`, and `snd.nxt` is to move only when something
is sent. The handlers write the two from the acknowledgment number of the segment,
so both hold in a run exactly if every segment taken carries a number for which
they do; `ordered_iff` is that for one step, `ordered_run_iff` for a run.
-/

namespace TcpDpdk

def Connection.Ordered (c : Connection) : Prop :=
  Circle.fwd c.sendSequenceSpace.una c.sendSequenceSpace.nxt < 2 ^ 31

def Connection.OrderedAt (c : Connection) (n : BitVec 32) : Prop :=
  Circle.fwd c.sendSequenceSpace.una n < 2 ^ 31

instance (c : Connection) (n : BitVec 32) : Decidable (c.OrderedAt n) :=
  inferInstanceAs (Decidable (_ < _))

/-- The segment carries an acknowledgment number that may be written to the send
space the way the handler of the state does it. -/
def Connection.SafeAck (c : Connection) (env : Env) (s : Seg) : Prop :=
  match c.tcpState with
  | .synSent => s.ackn ≠ c.sendSequenceSpace.nxt -- `una` is set to the number after it
  | .established => segmentCheck c s.size s.seq = true →
    if s.tcpHdr.has rteTcpFinFlag then env.mbuf = true ∧ c.OrderedAt (c.sendSequenceSpace.nxt + 1)
    else if s.size = 0 then s.ackn = c.sendSequenceSpace.nxt
    else c.OrderedAt s.ackn ∧ (env.mbuf = false → s.ackn = c.sendSequenceSpace.nxt)
  | _ => True

def SafeStep (env : Env) (t : Tcp) (op : Op) (o : Option Connection) : Prop :=
  match op, o with
  | .rx p, some c => ∀ s ∈ rxSegment t.nic env.pad p, c.SafeAck env s
  | .close _, some c => c.OrderedAt (c.sendSequenceSpace.nxt + 1)
  | _, _ => True

def SameNxt (c : Connection) (o : Option Connection) (out : Out) : Prop :=
  out.frames = [] → ∀ c', o = some c' → c'.sendSequenceSpace.nxt = c.sendSequenceSpace.nxt

/-! ## One step -/

theorem ordered_same {c c' : Connection} {o : Out} (hc : c.Ordered)
    (hu : c'.sendSequenceSpace.una = c.sendSequenceSpace.una)
    (hn : c'.sendSequenceSpace.nxt = c.sendSequenceSpace.nxt) :
    (∀ d, some c' = some d → d.Ordered) ∧ SameNxt c (some c') o := by
  constructor
  · intro d hd
    cases hd
    unfold Connection.Ordered
    rw [hu, hn]
    exact hc
  · intro _ d hd
    cases hd
    exact hn

theorem ordered_iff_at {c c' : Connection} {n : BitVec 32}
    (hu : c'.sendSequenceSpace.una = c.sendSequenceSpace.una) (hn : c'.sendSequenceSpace.nxt = n) :
    c'.Ordered ↔ c.OrderedAt n := by
  unfold Connection.Ordered Connection.OrderedAt
  rw [hu, hn]

theorem ordered_moved {c c' : Connection} {out : Out} {n : BitVec 32}
    (hu : c'.sendSequenceSpace.una = c.sendSequenceSpace.una) (hn : c'.sendSequenceSpace.nxt = n) :
    ((∀ d, some c' = some d → d.Ordered) ∧ SameNxt c (some c') out) ↔
      c.OrderedAt n ∧ (out.frames = [] → n = c.sendSequenceSpace.nxt) := by
  have ho := ordered_iff_at hu hn
  apply and_congr
  · exact ⟨fun h => ho.mp (h c' rfl), fun h d hd => by cases hd; exact ho.mpr h⟩
  · unfold SameNxt
    rw [← hn]
    exact ⟨fun h hf => h hf c' rfl, fun h hf d hd => by cases hd; exact h hf⟩

section
variable {K : RteCksum} {env : Env} {t : Tcp}

/-- The handshake of an active open: `una` ends up one ahead of `nxt`, unless the
segment acknowledged nothing. -/
theorem synAnswered_ordered {c : Connection} {s : Seg} (ha : s.ackn = iss ∨ s.ackn = iss + 1)
    (hn : c.sendSequenceSpace.nxt = iss + 1) :
    Circle.fwd (s.ackn + 1) c.sendSequenceSpace.nxt < 2 ^ 31 ↔ s.ackn ≠ c.sendSequenceSpace.nxt := by
  rw [hn]
  rcases ha with ha | ha <;> rw [ha] <;> decide

theorem rx_ordered {c : Connection} {s : Seg} {o : Option Connection} {out : Out}
    (h : Rx K env t c s o out) (hq : c.Quiet) (hs : c.SynOut) (hc : c.Ordered) :
    ((∀ c', o = some c' → c'.Ordered) ∧ SameNxt c o out) ↔ c.SafeAck env s := by
  unfold Connection.SafeAck
  cases h with
  | ignored ha =>
    apply iff_of_true (ordered_same hc rfl rfl)
    unfold Connection.accepts at ha
    split
    · rename_i hst; rw [hst] at ha; cases ha
    · rename_i hst
      rw [hst] at ha
      intro hsc
      cases ha.symm.trans hsc
    · trivial
  | synAgain hst _ _ _ =>
    rw [hst]
    exact iff_of_true (ordered_same hc (sent_una ..) (unsent_nxt hq)) trivial
  | synAcked hst _ _ =>
    rw [hst]
    exact iff_of_true (ordered_same hc rfl rfl) trivial
  | @synAnswered d _ hst hd _ =>
    rw [hst]
    have ho : c.Opening := Or.inl hst
    have hn : ((d.synAnswered s).sent K (sizeT s.size)).sendSequenceSpace.nxt =
        d.sendSequenceSpace.nxt := sent_nxt_plain (synAnswered_quiet d s)
    have hacks := ackCheck_synOut hs ho s.ackn
    obtain ⟨-, hnxt⟩ := hs ho
    rcases hd with ⟨ha, rfl⟩ | ⟨ha, rfl⟩
    · rw [← synAnswered_ordered (hacks.mp ha) hnxt]
      unfold SameNxt Connection.Ordered
      constructor
      · intro h
        have h := h.1 _ rfl
        rw [sent_una, hn] at h
        exact h
      · intro h
        refine ⟨fun c' hc' => ?_, fun _ c' hc' => ?_⟩ <;> cases hc'
        · rw [sent_una, hn]
          exact h
        · exact hn
    · refine iff_of_true (ordered_same hc (sent_una ..) hn) fun he => ?_
      rw [hnxt] at he
      cases ha.symm.trans (hacks.mpr (Or.inr he))
  | finAnswered hst hsc hf hp =>
    rw [hst]
    simp only [hsc, hf, ite_true, forall_const]
    refine Iff.trans (ordered_moved (n := c.sendSequenceSpace.nxt + 1) ?_ ?_) ?_
    · exact sent_una K (c.finAnswered s) (sizeT s.size)
    · exact sent_nxt_flags (c := c.finAnswered s) (f := rteTcpFinFlag ||| rteTcpAckFlag) rfl (by decide)
    · rw [sendP_nil hp, and_comm]
      refine and_congr_left fun _ => ?_
      cases hm : env.mbuf with
      | true => exact iff_of_true (fun h => nomatch h) rfl
      | false => exact iff_of_false (fun h => by simpa using h rfl) (fun h => nomatch h)
  | acked hst hsc hf h0 =>
    rw [hst]
    simp only [hsc, hf, Bool.false_eq_true, ite_false, forall_const]
    rw [if_pos h0]
    refine Iff.trans (ordered_moved (n := s.ackn) ?_ ?_) ?_
    · rfl
    · rfl
    · exact ⟨fun h => h.2 rfl, fun h => ⟨h ▸ hc, fun _ => h⟩⟩
  | dataAnswered hst hsc hf h0 hp =>
    rw [hst]
    simp only [hsc, hf, h0, Bool.false_eq_true, ite_false, forall_const]
    refine Iff.trans (ordered_moved (n := s.ackn) ?_ ?_) ?_
    · exact sent_una K (c.dataAnswered s) 0
    · exact sent_nxt_plain (dataAnswered_quiet c s)
    · rw [sendP_nil hp]
  | finAcked hst _ _ _ =>
    rw [hst]
    exact iff_of_true ⟨fun _ h => (nomatch h), fun _ _ h => nomatch h⟩ trivial
  | finAcked2 hst _ _ =>
    rw [hst]
    exact iff_of_true ⟨fun _ h => (nomatch h), fun _ _ h => nomatch h⟩ trivial
  | closed hst =>
    rw [hst]
    exact iff_of_true ⟨fun _ h => (nomatch h), fun _ _ h => nomatch h⟩ trivial

theorem ordered_new {c : Connection} {f : Byte} {n : BitVec 64} (hf : c.rteTcpHdr.tcpFlags = f)
    (hsyn : (f &&& rteTcpSynFlag = 0) ≠ (f &&& rteTcpFinFlag = 0))
    (hu : c.sendSequenceSpace.una = iss) (hn : c.sendSequenceSpace.nxt = iss) :
    (c.sent K n).Ordered := by
  unfold Connection.Ordered
  rw [sent_una, sent_nxt_flags hf hsyn, hu, hn]
  decide

theorem slot_ordered {op : Op} {o o' : Option Connection} {out : Out}
    (h : Slot K env t op o o' out) (hc : ∀ c, o = some c → c.Quiet ∧ c.SynOut ∧ c.Ordered) :
    ((∀ c', o' = some c' → c'.Ordered) ∧ ∀ p c, op = .rx p → o = some c → SameNxt c o' out) ↔
      SafeStep env t op o := by
  have old : ∀ c, o = some c → c.Ordered := fun c ho => (hc c ho).2.2
  -- a connection that was not there before cannot have moved its `nxt`
  have new : ∀ p c, op = .rx p → none = some c → SameNxt c o' out := fun _ _ _ h => nomatch h
  cases h with
  | @dropped p o hs =>
    have hsame : ∀ x c, Op.rx p = .rx x → o = some c → SameNxt c o {} := fun _ c _ ho _ c' ho' => by
      cases ho.symm.trans ho'; rfl
    refine iff_of_true ⟨old, hsame⟩ ?_
    cases o with
    | none => trivial
    | some c => exact fun s h => by cases hs.symm.trans h
  | unknown _ _ => exact iff_of_true ⟨old, new⟩ trivial
  | opened _ _ _ _ ho =>
    refine iff_of_true ⟨fun c' hc' => ?_, new⟩ trivial
    rcases ho with ho | ho <;> cases ho.symm.trans hc'
    exact ordered_new (f := rteTcpSynFlag ||| rteTcpAckFlag) rfl (by decide) rfl rfl
  | @handled p s c o out hs hrx =>
    obtain ⟨hq, hsyn, hord⟩ := hc c rfl
    rw [show SafeStep env t (.rx p) (some c) ↔ c.SafeAck env s from
      ⟨fun h => h s hs, fun h s' hs' => by cases hs.symm.trans hs'; exact h⟩]
    rw [← rx_ordered hrx hq hsyn hord]
    refine and_congr_right fun _ => ⟨fun h => h p c rfl rfl, fun h _ c' _ hc' => ?_⟩
    cases hc'
    exact h
  | connected _ _ ho =>
    refine iff_of_true ⟨fun c' hc' => ?_, new⟩ trivial
    rcases ho with ho | ho <;> cases ho.symm.trans hc'
    exact ordered_new (f := rteTcpSynFlag) rfl (by decide) rfl rfl
  | present => exact iff_of_true ⟨old, fun _ _ h => nomatch h⟩ trivial
  | noClose => exact iff_of_true ⟨old, fun _ _ h => nomatch h⟩ trivial
  | noSend => exact iff_of_true ⟨old, fun _ _ h => nomatch h⟩ trivial
  | @finSent _ c _ _ =>
    have ho : Connection.Ordered { c.finRaised.sent K 0 with tcpState := .finWait1 } ↔
        c.OrderedAt (c.sendSequenceSpace.nxt + 1) :=
      ordered_iff_at (sent_una K c.finRaised 0) (finRaised_nxt c 0)
    refine ⟨fun h => ho.mp (h.1 _ rfl), fun h => ⟨fun c' hc' => ?_, fun _ _ h => nomatch h⟩⟩
    cases hc'
    exact ho.mpr h
  | @dataSent _ data c _ _ =>
    refine iff_of_true ⟨?_, fun _ _ h => nomatch h⟩ trivial
    have hu := sent_una K (c.loaded (tokenMem data) (BitVec.ofNat 32 data.length))
      (sizeT (BitVec.ofNat 32 data.length))
    have hn := sent_nxt_plain (K := K) (n := sizeT (BitVec.ofNat 32 data.length))
      (loaded_quiet c (tokenMem data) (BitVec.ofNat 32 data.length))
    exact (ordered_same (o := {}) (old c rfl) hu hn).1

end

/-! ## Runs -/

section
variable {K : RteCksum}

def Core.Ordered (k : Core) : Prop := ∀ q c, k.conn q = some c → c.Ordered

/-- A segment received without anything being sent leaves `nxt` of every connection
where it was. -/
def KeepsNxt (e : (machine K).Event) : Prop :=
  (∃ p, e.input.op = .rx p) → e.out.frames = [] → ∀ q c c', e.pre.conn q = some c →
    e.post.conn q = some c' → c'.sendSequenceSpace.nxt = c.sendSequenceSpace.nxt

def SafeEvent (e : (machine K).Event) : Prop :=
  SafeStep e.input.env e.pre.tcp e.input.op (e.pre.conn (eventKey e))

theorem event_ordered {tr : List (machine K).Event} {e : (machine K).Event}
    (hr : Machine.Run tr e.pre) (hpre : e.pre.Ordered) :
    (e.post.Ordered ∧ KeepsNxt e) ↔ SafeEvent e := by
  have hslot := (event_slot e (run_rep hr)).2
  have hc : ∀ c, e.pre.conn (eventKey e) = some c → c.Quiet ∧ c.SynOut ∧ c.Ordered :=
    fun c hc => ⟨run_quiet hr _ c hc, run_synOut hr _ c hc, hpre _ c hc⟩
  unfold SafeEvent
  rw [← slot_ordered hslot hc]
  constructor
  · intro ⟨hpost, hkeep⟩
    exact ⟨hpost _, fun p c hop hc hf c' hc' => hkeep ⟨p, hop⟩ hf _ c c' hc hc'⟩
  · intro ⟨hpost, hkeep⟩
    constructor
    · intro q c' hc'
      rcases event_at e (run_rep hr) q with hsame | ⟨rfl, -⟩
      · exact hpre q c' (hsame ▸ hc')
      · exact hpost c' hc'
    · rintro ⟨p, hop⟩ hf q c c' hc hc'
      rcases event_at e (run_rep hr) q with hsame | ⟨rfl, -⟩
      · cases hc'.symm.trans (hsame.trans hc)
        rfl
      · exact hkeep p c hop hc hf c' hc'

/-- In every run the send spaces stay in order, and move only when something is
sent, exactly if every step meets its condition. -/
theorem ordered_run_iff {tr : List (machine K).Event} {k : Core} (h : Machine.Run tr k) :
    (∀ e ∈ tr, e.post.Ordered ∧ KeepsNxt e) ↔ ∀ e ∈ tr, SafeEvent e := by
  rw [← Machine.meets_mem, ← Machine.meets_mem]
  refine Machine.Run.meets_iff_inv (I := fun _ k => k.Ordered) ?_ ?_ ?_ h
  · rintro _ ⟨nic, last, rfl⟩ q c hc
    cases hc
  · intro tr e hr hpre
    exact event_ordered hr hpre
  · intro tr e hr hpre hsafe
    exact ((event_ordered hr hpre).mpr hsafe).1

end

/-! ## On the host -/

theorem ordered_run_iff_peerOpens : ∃ (tr : List (machine rfcCksum).Event) (k : Core),
    Machine.Run tr k ∧ tr.length = 2 ∧
      ((∀ e ∈ tr, e.post.Ordered ∧ KeepsNxt e) ↔ ∀ e ∈ tr, SafeEvent e) := by
  obtain ⟨tr, k, hr, hQ⟩ := Machine.exists_run (host_init rfcCksum) peerOpens
    (Q := fun r => r.1.length = 2) (by decide +kernel)
  exact ⟨tr, k, hr, of_decide_eq_true hQ, ordered_run_iff hr⟩

/-- A connection the host opens has `una` one ahead of `nxt` as soon as its SYN is
acknowledged. -/
theorem not_ordered_run : ¬∀ (tr : List (machine rfcCksum).Event) (k : Core), Machine.Run tr k →
    ∀ e ∈ tr, e.post.Ordered ∧ KeepsNxt e := by
  intro h
  obtain ⟨tr, k, hr, e, he, hQ⟩ := Machine.exists_event (host_init rfcCksum)
    [userConnect, recv (rteTcpSynFlag ||| rteTcpAckFlag) 0 1 []]
    (Q := fun e => (e.post.conn peerQuad).any fun c =>
      ¬c.OrderedAt c.sendSequenceSpace.nxt) (by decide +kernel)
  obtain ⟨c, hc, hno⟩ := (Option.any_eq_true ..).mp hQ
  exact of_decide_eq_true hno ((h tr k hr e he).1 peerQuad c hc)

end TcpDpdk

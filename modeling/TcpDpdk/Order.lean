import TcpDpdk.Numbering

/-!
# The order of what is sent

The commands act on any connection they find, whatever its state. Data belongs to
TCP_ESTABLISHED and one FIN to a connection; `legal_order_iff` says that this is kept
exactly as long as the user keeps to it.
-/

namespace TcpDpdk

section
variable {K : RteCksum}

def Connection.FinOut (c : Connection) : Prop := c.tcpState = .finWait1 ∨ c.tcpState = .lastAck

theorem sendsFin_established {nic : Nic} {pad : BitVec 32} {op : Op} {c : Connection}
    (h : sendsFin nic pad op (some c) = true) (hop : ∀ x, op ≠ .close x) :
    c.tcpState = .established := by
  unfold sendsFin at h
  split at h
  · exact absurd rfl (hop _)
  · rename_i ho
    cases ho
    obtain ⟨s, -, hs⟩ := (Option.any_eq_true ..).mp h
    exact (of_decide_eq_true hs).1
  · cases h

theorem sendsFin_dropped {nic : Nic} {pad : BitVec 32} {p : Packet} {c : Connection}
    (hs : rxSegment nic pad p = none) : sendsFin nic pad (.rx p) (some c) = false := by
  simp [sendsFin, hs]

theorem rx_finOut {env : Env} {t : Tcp} {p : Packet} {s : Seg} {c c' : Connection} {out : Out}
    (hs : rxSegment t.nic env.pad p = some s) (h : Rx K env t c s (some c') out) :
    c'.FinOut ↔ c.FinOut ∨ sendsFin t.nic env.pad (.rx p) (some c) = true := by
  have fin : sendsFin t.nic env.pad (.rx p) (some c) = true ↔ c.tcpState = .established ∧
      segmentCheck c s.size s.seq = true ∧ s.tcpHdr.has rteTcpFinFlag = true := by
    simp [sendsFin, hs]
  rw [fin]
  unfold Connection.FinOut
  cases h with
  | ignored ha =>
    refine ⟨Or.inl, fun h => h.resolve_right ?_⟩
    intro hsends
    obtain ⟨hst, hsc, -⟩ := hsends
    unfold Connection.accepts at ha
    rw [hst] at ha
    cases ha.symm.trans hsc
  | synAgain hst _ _ _ => rw [sent_tcpState]; simp [Connection.unsent, hst]
  | synAcked hst _ _ => simp [hst]
  | @synAnswered d _ hst hd _ =>
    rw [sent_tcpState]
    rcases hd with ⟨-, rfl⟩ | ⟨-, rfl⟩ <;> simp [Connection.synAnswered, hst]
  | finAnswered hst hsc hf _ => simp [hst, hsc, hf]
  | acked hst _ hf _ => simp [hst, hf]
  | dataAnswered hst _ hf _ _ => rw [sent_tcpState]; simp [Connection.dataAnswered, hst, hf]

theorem slot_finOut {env : Env} {t : Tcp} {op : Op} {c c' : Connection} {out : Out}
    (h : Slot K env t op (some c) (some c') out) :
    c'.FinOut ↔ c.FinOut ∨ sendsFin t.nic env.pad op (some c) = true := by
  cases h with
  | dropped hs => rw [sendsFin_dropped hs]; simp
  | handled hs hrx => exact rx_finOut hs hrx
  | present => simp [sendsFin]
  | finSent _ => simp [sendsFin, Connection.FinOut]
  | dataSent _ =>
    unfold Connection.FinOut
    rw [sent_tcpState]
    simp [sendsFin, Connection.loaded]

theorem slot_made_finOut {env : Env} {t : Tcp} {op : Op} {c : Connection} {out : Out}
    (h : Slot K env t op none (some c) out) : ¬c.FinOut := by
  have hm := slot_moves h rfl
  unfold Connection.FinOut
  generalize c.tcpState = st at hm ⊢
  cases hm with
  | listened => decide
  | connected => decide

/-! ## The history of a connection -/

theorem exists_made {tr : List (machine K).Event} {k : Core} (h : Machine.Run tr k) :
    ∀ {q c}, k.conn q = some c → ∃ xs, SinceMade tr q xs := by
  refine Machine.Run.induct (P := fun tr k => ∀ {q c}, k.conn q = some c → ∃ xs, SinceMade tr q xs)
    ?_ ?_ h
  · intro k ⟨nic, last, hk⟩ q c hc
    subst hk
    cases hc
  · intro tr e _ ih q c hc
    have hin : InTable q e := by
      unfold InTable
      rw [hc]
      exact Option.some_ne_none c
    cases hpre : e.pre.conn q with
    | none => exact ⟨[], .start ⟨hpre, hin⟩⟩
    | some d =>
      obtain ⟨xs, hs⟩ := ih hpre
      exact ⟨_, hs.snoc hin⟩

theorem finOut_history {tr xs : List (machine K).Event} {k : Core} (h : Machine.Run tr k) {q : Quad}
    (hs : SinceMade tr q xs) :
    ∃ c, k.conn q = some c ∧ (c.FinOut ↔ ∃ y ∈ xs, finIn q y = true) := by
  have split : ∀ (xs : List (machine K).Event) e,
      (∃ y ∈ xs ++ [e], finIn q y = true) ↔ (∃ y ∈ xs, finIn q y = true) ∨ finIn q e = true := by
    intro xs e
    simp only [List.mem_append, List.mem_singleton, or_and_right, exists_or, exists_eq_left]
  refine sinceMade_conn (J := fun xs c => c.FinOut ↔ ∃ y ∈ xs, finIn q y = true) ?_ ?_ ?_ h hs
  · exact fun f c hslot => iff_of_false (slot_made_finOut hslot) fun ⟨_, hy, _⟩ => nomatch hy
  · intro xs e c hq hfin
    rw [split, ← hfin]
    simp [finIn, hq]
  · intro xs e c c' hq hc _ hslot hfin
    rw [split, ← hfin, slot_finOut hslot]
    simp [finIn, hc, hq]

/-! ## Legal order -/

/-- A frame with the FIN flag is sent by a step that sends a FIN only, and `finNumber` is
its sequence number. -/
theorem frame_finIn {tr : List (machine K).Event} {e : (machine K).Event} (hr : Machine.Run tr e.pre)
    {f : Frame} (hf : f ∈ e.out.frames) (hfin : f.tcp.has rteTcpFinFlag = true) :
    finIn (eventKey e) e = true ∧ finNumber (eventKey e) e = some f.seq := by
  have hslot := (event_slot e (run_rep hr)).2
  cases hc : e.pre.conn (eventKey e) with
  | none =>
    rw [hc] at hslot
    cases (slot_made_fins hslot f hf).symm.trans hfin
  | some c =>
    rw [hc] at hslot
    obtain ⟨⟨hsends, -⟩, hseq, -⟩ := (slot_fins hslot (run_quiet hr _ c hc)).only f hf hfin
    exact ⟨by simp [finIn, hc, hsends], by simp [finNumber, hc, hseq]⟩

/-- Of a connection with the history `xs`: the user's data is sent in TCP_ESTABLISHED
and before any FIN, and a FIN consumes no other number than the FINs before it. -/
def LegalOrder (tr : List (machine K).Event) (e : (machine K).Event) : Prop :=
  ∀ q xs, SinceMade tr q xs → eventKey e = q →
    (∀ x data, e.input.op = .send x data → (∃ f ∈ e.out.frames, f.payload ≠ []) →
      e.pre.stateOf q = some .established ∧ ∀ y ∈ xs, finIn q y = false) ∧
    (finIn q e = true → ∀ y ∈ xs, finIn q y = true → finNumber q y = finNumber q e)

/-- The user sends in TCP_ESTABLISHED only, as far as there is anything to send and a
buffer to send it from, and does not close a connection past its FIN. -/
def UsedInOrder (e : (machine K).Event) : Prop :=
  ∀ c, e.pre.conn (eventKey e) = some c →
    (∀ x data, e.input.op = .send x data → e.input.env.mbuf = true →
      BitVec.ofNat 32 data.length ≠ 0 → c.tcpState = .established) ∧
    ∀ x, e.input.op = .close x → ¬c.FinOut

/-- After a FIN `snd.nxt` stays at the number after it. -/
def FinNumbered (tr : List (machine K).Event) (k : Core) : Prop :=
  ∀ q xs c, SinceMade tr q xs → k.conn q = some c → ∀ y ∈ xs, finIn q y = true →
    ∃ n, finNumber q y = some n ∧ c.sendSequenceSpace.nxt = n + 1

theorem send_payload {env : Env} {t : Tcp} {x : Quad} {data : List Byte} {c : Connection}
    {o : Option Connection} {out : Out} (h : Slot K env t (.send x data) (some c) o out) :
    (∃ f ∈ out.frames, f.payload ≠ []) ↔ env.mbuf = true ∧ BitVec.ofNat 32 data.length ≠ 0 := by
  cases h with
  | @dataSent _ _ _ frames hp =>
    have hlen : ∀ f ∈ frames, f.payload.length = (sizeT (BitVec.ofNat 32 data.length)).toNat := by
      intro f hf
      rw [(sendP_seq hp f hf).2.1, Mem.length_bytes]
    constructor
    · intro ⟨f, hf, hne⟩
      refine ⟨(sendP_exists hp).mp ⟨f, hf⟩, fun h0 => hne (List.length_eq_zero_iff.mp ?_)⟩
      rw [hlen f hf, sizeT_eq_zero]
      exact h0
    · intro ⟨hm, h0⟩
      obtain ⟨f, hf⟩ := (sendP_exists hp).mpr hm
      refine ⟨f, hf, fun he => h0 (sizeT_eq_zero.mp ?_)⟩
      rw [← hlen f hf, he]
      rfl

theorem event_legalOrder {tr : List (machine K).Event} {e : (machine K).Event}
    (hr : Machine.Run tr e.pre) (hI : FinNumbered tr e.pre) : LegalOrder tr e ↔ UsedInOrder e := by
  constructor
  · intro h c hc
    obtain ⟨xs, hs⟩ := exists_made hr hc
    obtain ⟨hdata, hfin⟩ := h _ xs hs rfl
    obtain ⟨c', hc', hout⟩ := finOut_history hr hs
    cases hc.symm.trans hc'
    have hslot := (event_slot e (run_rep hr)).2
    rw [hc] at hslot
    constructor
    · intro x data hx hm h0
      rw [hx] at hslot
      obtain ⟨d, hd, hst⟩ := stateOf_eq.mp (hdata x data hx ((send_payload hslot).mpr ⟨hm, h0⟩)).1
      cases hc.symm.trans hd
      exact hst
    · intro x hx hpast
      obtain ⟨y, hy, hyfin⟩ := hout.mp hpast
      obtain ⟨n, hn, hnxt⟩ := hI _ xs c hs hc y hy hyfin
      have he : finIn (eventKey e) e = true := by simp [finIn, sendsFin, hx, hc]
      have hsame := hfin he y hy hyfin
      unfold finNumber at hsame hn
      rw [hn, hc, Option.map_some, hnxt] at hsame
      exact absurd (Option.some.inj hsame) (by simp)
  · intro h q xs hs hq
    subst hq
    obtain ⟨c, hc, hout⟩ := finOut_history hr hs
    obtain ⟨hdata, hclose⟩ := h c hc
    have before : c.tcpState = .established → ∀ y ∈ xs, finIn (eventKey e) y = false := by
      intro hst y hy
      by_contra hyfin
      rw [Bool.not_eq_false] at hyfin
      rcases hout.mpr ⟨y, hy, hyfin⟩ with h | h <;> cases hst.symm.trans h
    have hslot := (event_slot e (run_rep hr)).2
    rw [hc] at hslot
    constructor
    · intro x data hx hsent
      rw [hx] at hslot
      obtain ⟨hm, h0⟩ := (send_payload hslot).mp hsent
      have hst := hdata x data hx hm h0
      exact ⟨stateOf_eq.mpr ⟨c, hc, hst⟩, before hst⟩
    · intro he y hy hyfin
      refine absurd (hout.mpr ⟨y, hy, hyfin⟩) ?_
      by_cases hcl : ∃ x, e.input.op = .close x
      · obtain ⟨x, hx⟩ := hcl
        exact hclose x hx
      · rw [finIn, Bool.and_eq_true, hc] at he
        have hst : c.tcpState = .established := sendsFin_established he.2 fun x hx => hcl ⟨x, hx⟩
        intro hpast
        rcases hpast with h | h <;> cases hst.symm.trans h

theorem nxtAfter_finOut {nic : Nic} {pad : BitVec 32} {op : Op} {c : Connection} (hpast : c.FinOut)
    (hno : sendsFin nic pad op (some c) = false) (n : BitVec 32) :
    nxtAfter nic pad op (some c) n = n := by
  have hst : c.tcpState ≠ .established := by
    intro hst
    rcases hpast with h | h <;> cases hst.symm.trans h
  have hack : ackTaken nic pad op (some c) = none := by
    unfold ackTaken
    split
    · rename_i ho
      cases ho
      rw [if_neg fun h => hst h.1]
    · rfl
  unfold nxtAfter
  rw [hno, hack]
  rfl

theorem event_finNumbered {tr : List (machine K).Event} {e : (machine K).Event}
    (hr : Machine.Run tr e.pre) (hI : FinNumbered tr e.pre) (hD : UsedInOrder e) :
    FinNumbered (tr ++ [e]) e.post := by
  intro q xs c' hs hc' y hy hyfin
  rcases Machine.since_snoc.mp hs with ⟨rfl, -⟩ | ⟨ys, rfl, hys, -⟩
  · cases hy
  · obtain ⟨c, hc, hout⟩ := finOut_history hr hys
    have moved : eventKey e = q → c'.sendSequenceSpace.nxt = nxtAfter e.pre.tcp.nic
        e.input.env.pad e.input.op (some c) c.sendSequenceSpace.nxt := by
      intro hq
      subst hq
      have hslot := (event_slot e (run_rep hr)).2
      rw [hc, hc'] at hslot
      exact slot_nxt hslot (run_quiet hr _ c hc)
    rcases List.mem_append.mp hy with hy | hy
    · obtain ⟨n, hn, hnxt⟩ := hI q ys c hys hc y hy hyfin
      refine ⟨n, hn, ?_⟩
      have hpast : c.FinOut := hout.mpr ⟨y, hy, hyfin⟩
      by_cases hq : eventKey e = q
      · rw [moved hq, nxtAfter_finOut hpast ?_, hnxt]
        subst hq
        by_contra hsends
        rw [Bool.not_eq_false] at hsends
        have hst := sendsFin_established hsends fun x hx => (hD c hc).2 x hx hpast
        rcases hpast with h | h <;> cases hst.symm.trans h
      · cases hc'.symm.trans (((event_slot e (run_rep hr)).1 q (Ne.symm hq)).trans hc)
        exact hnxt
    · rw [List.mem_singleton] at hy
      subst hy
      rw [finIn, Bool.and_eq_true, hc] at hyfin
      refine ⟨c.sendSequenceSpace.nxt, by unfold finNumber; rw [hc]; rfl, ?_⟩
      rw [moved (of_decide_eq_true hyfin.1), nxtAfter, if_pos hyfin.2]

/-- In every run every connection sends in legal order, exactly if the user does not
send outside TCP_ESTABLISHED or close what is closed. -/
theorem legal_order_iff {tr : List (machine K).Event} {k : Core} (h : Machine.Run tr k) :
    Machine.Meets LegalOrder tr ↔ ∀ e ∈ tr, UsedInOrder e := by
  rw [← Machine.meets_mem]
  refine Machine.Run.meets_iff_inv (I := FinNumbered) ?_ ?_ ?_ h
  · intro k _ q xs c ⟨ta, f, ht, _, _⟩
    simp at ht
  · intro tr e hr hI
    exact event_legalOrder hr hI
  · intro tr e hr hI hD
    exact event_finNumbered hr hI hD

end

/-! ## On the host -/

theorem legal_order_iff_send : ∃ (tr : List (machine rfcCksum).Event) (k : Core),
    Machine.Run tr k ∧ tr.length = 4 ∧
      (Machine.Meets LegalOrder tr ↔ ∀ e ∈ tr, UsedInOrder e) := by
  obtain ⟨tr, k, hr, hQ⟩ := Machine.exists_run (host_init rfcCksum)
    (peerOpens ++ [userSend [0x41], userClose]) (Q := fun r => r.1.length = 4) (by decide +kernel)
  exact ⟨tr, k, hr, of_decide_eq_true hQ, legal_order_iff hr⟩

/-- A second close sends a second FIN, under the next number. -/
theorem not_legal_order : ¬∀ (tr : List (machine rfcCksum).Event) (k : Core), Machine.Run tr k →
    Machine.Meets LegalOrder tr := by
  intro h
  obtain ⟨tr, k, hr, hQ⟩ := Machine.exists_run (host_init rfcCksum)
    (peerOpens ++ [userClose, userClose])
    (Q := fun r => match r.1 with
      | [a, b, d, e] =>
        (a.pre.conn peerQuad).isNone ∧ (∀ x ∈ [a, b, d], (x.post.conn peerQuad).isSome) ∧
          eventKey e = peerQuad ∧ finIn peerQuad d = true ∧ finIn peerQuad e = true ∧
          finNumber peerQuad d ≠ finNumber peerQuad e
      | _ => false) (by decide +kernel)
  simp only at hQ
  split at hQ
  · rename_i a b d e
    obtain ⟨hnew, hin, hkey, hd, he, hne⟩ := of_decide_eq_true hQ
    have hmade : SinceMade [a, b, d] peerQuad [b, d] := sinceMade_of (t := []) hnew hin
    exact hne ((h _ k hr [a, b, d] e [] rfl peerQuad [b, d] hmade hkey).2 he d (by simp) hd)
  · cases hQ

end TcpDpdk

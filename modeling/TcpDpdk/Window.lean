import TcpDpdk.Creation

/-!
# The receive window

`segmentCheck` tests segments against one field of the connection, and the segments
it sends advertise another. A connection opened by the host has the same number in
both; one opened by its peer is given the window of the peer's SYN to test with.
-/

namespace TcpDpdk

/-! ## The acceptance test -/

/-- The test of RFC 793: the number of an empty segment, or the first or last byte of
one with data, lies in the window; a closed window takes empty segments at its edge. -/
def Acceptable (c : Connection) (slen seqn : BitVec 32) : Prop :=
  let nxt := c.receiveSequenceSpace.nxt
  let wnd := c.receiveSequenceSpace.wnd.toNat
  if slen = 0 then
    if wnd = 0 then seqn = nxt else Circle.fwd nxt seqn < wnd
  else
    0 < wnd ∧ (Circle.fwd nxt seqn < wnd ∨ Circle.fwd nxt (seqn + slen - 1) < wnd)

/-- The first or the last byte lies in the window. -/
def Touches (c : Connection) (slen seqn : BitVec 32) : Prop :=
  Circle.fwd c.receiveSequenceSpace.nxt seqn < c.receiveSequenceSpace.wnd.toNat ∨
    Circle.fwd c.receiveSequenceSpace.nxt (seqn + slen - 1) < c.receiveSequenceSpace.wnd.toNat

instance (c : Connection) (slen seqn : BitVec 32) : Decidable (Touches c slen seqn) :=
  inferInstanceAs (Decidable (_ ∨ _))

theorem wnd_ne_zero {c : Connection} :
    c.receiveSequenceSpace.wnd ≠ 0 ↔ 0 < c.receiveSequenceSpace.wnd.toNat := by
  rw [Nat.pos_iff_ne_zero, not_iff_not]
  exact ⟨fun h => by rw [h]; rfl, fun h => BitVec.eq_of_toNat_eq h⟩

theorem acceptable_empty (c : Connection) (seqn : BitVec 32) :
    segmentCheck c 0 seqn = true ↔ Acceptable c 0 seqn := by
  rw [segmentCheck_empty]
  unfold Acceptable
  dsimp only
  rw [if_pos rfl]
  by_cases h0 : c.receiveSequenceSpace.wnd.toNat = 0
  · rw [if_pos h0, h0]
    simp
  · rw [if_neg h0]
    refine ⟨fun h => ?_, Or.inr⟩
    apply h.elim
    · intro heq
      rw [heq, Circle.fwd_self]
      exact Nat.pos_of_ne_zero h0
    · exact id

theorem acceptable_data {c : Connection} {slen : BitVec 32} (hs : slen ≠ 0) (seqn : BitVec 32) :
    Acceptable c slen seqn ↔ segmentCheck c slen seqn = true ∧ Touches c slen seqn := by
  rw [segmentCheck_data hs, wnd_ne_zero]
  unfold Acceptable Touches
  dsimp only
  rw [if_neg hs]

/-- The test agrees with that of RFC 793 on a segment exactly if the segment is empty,
the window is closed, or the segment touches it. -/
theorem segmentCheck_acceptable_iff (c : Connection) (slen seqn : BitVec 32) :
    (segmentCheck c slen seqn = true ↔ Acceptable c slen seqn) ↔
      slen = 0 ∨ c.receiveSequenceSpace.wnd = 0 ∨ Touches c slen seqn := by
  by_cases hs : slen = 0
  · subst hs
    exact iff_of_true (acceptable_empty c seqn) (Or.inl rfl)
  · rw [acceptable_data hs]
    by_cases hw : c.receiveSequenceSpace.wnd = 0
    · have hno : ¬segmentCheck c slen seqn = true := fun h => (segmentCheck_data hs).mp h hw
      exact iff_of_true (iff_of_false hno fun h => hno h.1) (Or.inr (Or.inl hw))
    · have hyes : segmentCheck c slen seqn = true := (segmentCheck_data hs).mpr hw
      constructor
      · intro h
        exact Or.inr (Or.inr (h.mp hyes).2)
      · intro h
        exact iff_of_true hyes ⟨hyes, (h.resolve_left hs).resolve_left hw⟩

/-- One byte, half the numbers away from a window of a thousand. -/
theorem not_segmentCheck_acceptable : ¬∀ (c : Connection) (slen seqn : BitVec 32),
    slen.toNat < 2 ^ 31 → (segmentCheck c slen seqn = true ↔ Acceptable c slen seqn) := by
  intro h
  let c := expecting1 .established
  have hacc : Acceptable c 1 0x80000000 := (h c 1 0x80000000 (by decide)).mp (by decide)
  have hin : Touches c 1 0x80000000 := ((acceptable_data (by decide) _).mp hacc).2
  exact absurd hin (by decide)

/-! ## Tested and advertised -/

structure Windows where
  tested : BitVec 16
  advertised : BitVec 16

def Connection.windows (c : Connection) : Windows :=
  ⟨c.receiveSequenceSpace.wnd, rteBeToCpu16 c.rteTcpHdr.rxWin⟩

def Frame.window (f : Frame) : BitVec 16 := rteBeToCpu16 f.tcp.rxWin

/-- The window of every SYN and SYN|ACK of this host. -/
def wnd : BitVec 16 := 64240

def Connection.Consistent (c : Connection) : Prop := c.windows.tested = c.windows.advertised

def Connection.TakesAdvertised (c : Connection) : Prop :=
  ∀ slen seqn, slen ≠ 0 → Circle.fwd c.receiveSequenceSpace.nxt seqn < c.windows.advertised.toNat →
    segmentCheck c slen seqn = true

theorem Connection.Consistent.takes {c : Connection} (h : c.Consistent) : c.TakesAdvertised := by
  intro slen seqn hs hin
  rw [segmentCheck_data hs, wnd_ne_zero]
  have ht : c.receiveSequenceSpace.wnd = c.windows.advertised := h
  rw [ht]
  exact Nat.zero_lt_of_lt hin

section
variable {K : RteCksum}

@[simp] theorem txFlag_windows (flag : Byte) (c : Connection) :
    (txFlag flag c).windows = c.windows := by
  unfold txFlag; split <;> rfl

@[simp] theorem sent_windows (c : Connection) (n : BitVec 64) : (c.sent K n).windows = c.windows := by
  unfold Connection.sent
  rw [txFlag_windows, txFlag_windows]
  rfl

theorem sendP_window {env : Env} {t : Tcp} {c : Connection} {data : Mem} {n m : BitVec 64}
    {frames : List Frame} (h : sendP env t (txHeaders K c n) data m = some frames) :
    ∀ f ∈ frames, f.window = c.windows.advertised := by
  intro f hf
  rcases sendP_some h with ⟨rfl, -⟩ | ⟨rfl, -, -⟩
  · cases hf
  · rw [List.mem_singleton] at hf
    subst hf
    rfl

section
variable {env : Env} {t : Tcp}

theorem windows_kept {c d : Connection} (hd : d.windows = c.windows) :
    (∀ c', some d = some c' → c'.windows = c.windows) ∧
      ∀ f ∈ ({} : Out).frames, f.window = c.windows.advertised := by
  refine ⟨fun c' hc' => ?_, fun f hf => nomatch hf⟩
  cases hc'
  exact hd

theorem windows_sent {c d : Connection} {o : Option Connection} {data : Mem} {n m : BitVec 64}
    {frames : List Frame} {printed : List Byte} (hd : d.windows = c.windows)
    (hp : sendP env t (txHeaders K d n) data m = some frames)
    (ho : o = none ∨ ∃ st, o = some { d.sent K n with tcpState := st }) :
    (∀ c', o = some c' → c'.windows = c.windows) ∧
      ∀ f ∈ ({ frames, printed } : Out).frames, f.window = c.windows.advertised := by
  refine ⟨fun c' hc' => ?_, fun f hf => ?_⟩
  · rcases ho with rfl | ⟨st, rfl⟩
    · cases hc'
    · cases hc'
      exact (sent_windows d n).trans hd
  · rw [← hd]
    exact sendP_window hp f hf

theorem rx_windows {c : Connection} {s : Seg} {o : Option Connection} {out : Out}
    (h : Rx K env t c s o out) : (∀ c', o = some c' → c'.windows = c.windows) ∧
      ∀ f ∈ out.frames, f.window = c.windows.advertised := by
  cases h with
  | ignored _ => exact windows_kept rfl
  | synAgain _ _ _ hp => exact windows_sent (d := c.unsent) rfl hp (Or.inr ⟨_, rfl⟩)
  | synAcked _ _ _ => exact windows_kept rfl
  | @synAnswered d _ _ hd hp =>
    have hdw : d.windows = c.windows := by
      rcases hd with ⟨-, rfl⟩ | ⟨-, rfl⟩ <;> rfl
    exact windows_sent (d := d.synAnswered s) hdw hp (Or.inr ⟨_, rfl⟩)
  | finAnswered _ _ _ hp => exact windows_sent (d := c.finAnswered s) rfl hp (Or.inr ⟨_, rfl⟩)
  | acked _ _ _ _ => exact windows_kept rfl
  | dataAnswered _ _ _ _ hp => exact windows_sent (d := c.dataAnswered s) rfl hp (Or.inr ⟨_, rfl⟩)
  | finAcked _ _ _ hp =>
    exact windows_sent (d := { c.finAcked s with tcpState := .finWait2 }) rfl hp (Or.inl rfl)
  | finAcked2 _ _ hp => exact windows_sent (d := c.finAcked s) rfl hp (Or.inl rfl)
  | closed _ => exact ⟨fun _ h => (nomatch h), fun f hf => nomatch hf⟩

theorem slot_windows {op : Op} {c : Connection} {o : Option Connection} {out : Out}
    (h : Slot K env t op (some c) o out) : (∀ c', o = some c' → c'.windows = c.windows) ∧
      ∀ f ∈ out.frames, f.window = c.windows.advertised := by
  cases h with
  | dropped _ => exact windows_kept rfl
  | handled _ hrx => exact rx_windows hrx
  | present => exact windows_kept rfl
  | finSent hp => exact windows_sent (d := c.finRaised) rfl hp (Or.inr ⟨_, rfl⟩)
  | @dataSent _ data _ _ hp =>
    exact windows_sent (d := c.loaded (tokenMem data) (BitVec.ofNat 32 data.length)) rfl hp
      (Or.inr ⟨_, rfl⟩)

theorem made_windows {nic : Nic} {g c : Connection} {i : Input} {data : Mem} {n : BitVec 64}
    (h : Made nic g i c data n) : c.windows.advertised = wnd ∧
      (c.Consistent ↔ ∀ s, opSegment nic i.env.pad i.op = some s →
        rteBeToCpu16 s.tcpHdr.rxWin = wnd) := by
  have hw : rteBeToCpu16 (rteCpuToBe16 64240) = wnd := rteBeToCpu16_rteCpuToBe16 _
  cases h with
  | @listened _ _ s hs _ =>
    refine ⟨hw, ?_⟩
    show rteBeToCpu16 s.tcpHdr.rxWin = rteBeToCpu16 (rteCpuToBe16 64240) ↔ _
    rw [hw]
    constructor
    · intro h s' hs'
      cases hs.symm.trans hs'
      exact h
    · intro h
      exact h s hs
  | connected => exact ⟨hw, iff_of_true hw.symm fun _ h => nomatch h⟩

end

/-! ## Runs -/

theorem run_advertised {tr : List (machine K).Event} {k : Core} (h : Machine.Run tr k) :
    ∀ q c, k.conn q = some c → c.windows.advertised = wnd := by
  refine Machine.Run.induct
    (P := fun _ k => ∀ q c, k.conn q = some c → c.windows.advertised = wnd) ?_ ?_ h
  · intro s ⟨nic, last, hs⟩ q c hc
    subst hs
    cases hc
  · intro tr e hr ih q c hc
    cases hpre : e.pre.conn q with
    | none =>
      obtain ⟨-, -, -, g, d, data, n, hm, rfl⟩ := event_new (run_rep hr) hpre hc
      rw [sent_windows]
      exact (made_windows hm).1
    | some d =>
      have hd := ih q d hpre
      rcases event_at e (run_rep hr) q with hsame | ⟨-, hslot⟩
      · cases hc.symm.trans (hsame.trans hpre)
        exact hd
      · rw [hpre] at hslot
        rw [(slot_windows hslot).1 c hc]
        exact hd

theorem event_advertised {e : (machine K).Event} (hrep : e.pre.Rep)
    (hpre : ∀ q c, e.pre.conn q = some c → c.windows.advertised = wnd) :
    ∀ f ∈ e.out.frames, f.window = wnd := by
  intro f hf
  have hslot := (event_slot e hrep).2
  cases hc : e.pre.conn (eventKey e) with
  | some c =>
    rw [hc] at hslot
    rw [(slot_windows hslot).2 f hf]
    exact hpre _ c hc
  | none =>
    have hatt : Attempts e.pre e.input := by
      refine attempts_of_frames hrep e.fired hc (List.ne_nil_of_mem hf)
    obtain ⟨g, c, data, n, frames, -, hm, hp, -, ho⟩ := step_attempt hatt e.fired
    rw [ho] at hf
    rw [sendP_window hp f hf]
    exact (made_windows hm).1

def Core.Consistent (k : Core) : Prop :=
  ∀ q c, k.conn q = some c → c.Consistent ∧ c.TakesAdvertised

/-- A SYN that makes a connection comes with the window this host advertises. -/
def OffersWnd (e : (machine K).Event) : Prop :=
  Attempts e.pre e.input → e.pre.tcp.rteHash.Room (eventKey e) →
    ∀ s, segOf e = some s → rteBeToCpu16 s.tcpHdr.rxWin = wnd

theorem event_consistent {e : (machine K).Event} (hrep : e.pre.Rep) (hpre : e.pre.Consistent) :
    e.post.Consistent ↔ OffersWnd e := by
  constructor
  · intro hpost hatt hroom s hs
    obtain ⟨g, c, data, n, hm, hc⟩ := event_made hatt hroom
    have hcons := (hpost _ _ hc).1
    unfold Connection.Consistent at hcons
    rw [sent_windows] at hcons
    exact (made_windows hm).2.mp hcons s hs
  · intro hoffer q c hc
    suffices h : c.Consistent from ⟨h, h.takes⟩
    unfold Connection.Consistent
    cases hold : e.pre.conn q with
    | none =>
      obtain ⟨rfl, hatt, hroom, g, d, data, n, hm, rfl⟩ := event_new hrep hold hc
      rw [sent_windows]
      exact (made_windows hm).2.mpr (hoffer hatt hroom)
    | some d =>
      have hd : d.Consistent := (hpre q d hold).1
      rcases event_at e hrep q with hsame | ⟨-, hslot⟩
      · cases hc.symm.trans (hsame.trans hold)
        exact hd
      · rw [hold] at hslot
        rw [(slot_windows hslot).1 c hc]
        exact hd

/-- In every run every segment advertises the same window, and after every step every
connection tests with that one exactly if every SYN that made a connection came with it. -/
theorem consistent_iff {tr : List (machine K).Event} {k : Core} (h : Machine.Run tr k) :
    (∀ e ∈ tr, ∀ f ∈ e.out.frames, f.window = wnd) ∧
      (∀ q c, k.conn q = some c → c.windows.advertised = wnd) ∧
      ((∀ e ∈ tr, e.post.Consistent) ↔ ∀ e ∈ tr, OffersWnd e) := by
  refine ⟨fun e he => ?_, run_advertised h, ?_⟩
  · obtain ⟨tr₁, hr⟩ := h.reached he
    exact event_advertised (run_rep hr) (run_advertised hr)
  · rw [← Machine.meets_mem, ← Machine.meets_mem]
    refine Machine.Run.meets_iff_inv (I := fun _ k => k.Consistent) ?_ ?_ ?_ h
    · intro s ⟨nic, last, hs⟩ q c hc
      subst hs
      cases hc
    · intro tr e hr hI
      exact event_consistent (run_rep hr) hI
    · intro tr e hr hI hD
      exact (event_consistent (run_rep hr) hI).mpr hD

end

/-! ## On the host -/

theorem consistent_iff_peerOpens : ∃ (tr : List (machine rfcCksum).Event) (k : Core),
    Machine.Run tr k ∧ tr.length = 2 ∧
      (∀ e ∈ tr, ∀ f ∈ e.out.frames, f.window = wnd) ∧
      (∀ q c, k.conn q = some c → c.windows.advertised = wnd) ∧
      ((∀ e ∈ tr, e.post.Consistent) ↔ ∀ e ∈ tr, OffersWnd e) := by
  obtain ⟨tr, k, hr, hlen⟩ := Machine.exists_run (host_init rfcCksum) peerOpens
    (Q := fun r => r.1.length = 2) (by decide +kernel)
  exact ⟨tr, k, hr, of_decide_eq_true hlen, consistent_iff hr⟩

/-- The window of a SYN that offers none: every byte of data is thrown away. -/
theorem not_consistent : ¬∀ (tr : List (machine rfcCksum).Event) (k : Core), Machine.Run tr k →
    ∀ q c, k.conn q = some c → c.Consistent ∧ c.TakesAdvertised := by
  intro h
  let p := peerPacket rteTcpSynFlag 0 0 []
  obtain ⟨tr, k, hr, hQ⟩ := Machine.exists_run (host_init rfcCksum)
    [⟨.rx { p with tcp.rxWin := 0 }, calm⟩]
    (Q := fun r => (r.2.conn peerQuad).any fun c => c.receiveSequenceSpace.nxt = 1 ∧
      c.windows.advertised = 64240 ∧ segmentCheck c 1 1 = false) (by decide +kernel)
  obtain ⟨c, hc, hQ⟩ := (Option.any_eq_true ..).mp hQ
  obtain ⟨hnxt, hadv, hno⟩ := of_decide_eq_true hQ
  have htakes := (h tr k hr peerQuad c hc).2 1 1 (by decide)
  rw [hnxt, hadv] at htakes
  cases hno.symm.trans (htakes (by decide))

end TcpDpdk

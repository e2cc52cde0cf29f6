import TcpDpdk.Host

/-!
# Keys of the table

The table hashes and compares a `struct quad` with its gaps, so an entry is found
under the four fields it was made for only if the gaps hold what they held then.
Under its key an entry is what it should be: the stored headers lead from the
host's end of the quad to the peer's, and so does every frame sent.
-/

namespace TcpDpdk

/-! ## Finding an entry -/

def Quad.SameFlow (q x : Quad) : Prop :=
  q.sip = x.sip ∧ q.sport = x.sport ∧ q.dip = x.dip ∧ q.dport = x.dport

theorem Quad.SameFlow.eq_iff {q x : Quad} (h : q.SameFlow x) : q = x ↔ q.pad = x.pad := by
  obtain ⟨h1, h2, h3, h4⟩ := h
  constructor
  · intro he; rw [he]
  · intro hp
    cases q; cases x
    simp_all

/-- What is inserted under `q` is what a lookup of `x` finds and a deletion of `x`
takes away. -/
def HitsEntry (t : RteHash) (q x : Quad) (p : Nat) : Prop :=
  (t.add q p).lookup x = some p ∧ ((t.add q p).del x).lookup q = none

theorem hitsEntry_iff {t : RteHash} {q x : Quad} {p : Nat} (hs : q.SameFlow x) (hroom : t.Room q) :
    HitsEntry t q x p ↔ q.pad = x.pad := by
  rw [← hs.eq_iff]
  constructor
  · intro ⟨_, hdel⟩
    by_contra hne
    rw [Store.Table.lookup_del_ne hne, Store.Table.lookup_add hroom] at hdel
    cases hdel
  · intro he
    subst he
    exact ⟨Store.Table.lookup_add hroom, Store.Table.lookup_del ..⟩

theorem conn_flow_iff {k : Core} (hrep : k.Rep) {q x : Quad} {c : Connection}
    (hc : k.conn q = some c) (hs : q.SameFlow x) : k.conn x = some c ↔ q.pad = x.pad := by
  rw [← hs.eq_iff]
  constructor
  · intro hx
    exact (hrep.key hc).symm.trans (hrep.key hx)
  · intro he
    exact he ▸ hc

def flowConnection (k : Core) (pad : BitVec 32) (q : Quad) : Option Connection :=
  k.conn { q with pad }

section
variable {K : RteCksum}

def FindsFlow (e : (machine K).Event) : Prop :=
  ∀ q c, e.pre.conn q = some c → q.SameFlow (eventKey e) → e.pre.conn (eventKey e) = some c

def SamePad (e : (machine K).Event) : Prop :=
  ∀ q c, e.pre.conn q = some c → q.SameFlow (eventKey e) → q.pad = e.input.env.pad

theorem eventKey_pad (e : (machine K).Event) : (eventKey e).pad = e.input.env.pad := by
  unfold eventKey keyOf
  split <;> rfl

theorem event_findsFlow {e : (machine K).Event} (hrep : e.pre.Rep) : FindsFlow e ↔ SamePad e := by
  unfold FindsFlow SamePad
  rw [← eventKey_pad e]
  exact forall_congr' fun q => forall_congr' fun c => forall_congr' fun hc =>
    forall_congr' fun hs => conn_flow_iff hrep hc hs

/-- An entry is found under its four fields exactly if the gaps agree: in any table,
by every segment and command of a run, and by `flow` in the state it ends in. -/
theorem found_by_flow_iff {tr : List (machine K).Event} {k : Core} (h : Machine.Run tr k) :
    (∀ (t : RteHash) q x p, q.SameFlow x → t.Room q → (HitsEntry t q x p ↔ q.pad = x.pad)) ∧
      ((∀ e ∈ tr, FindsFlow e) ↔ ∀ e ∈ tr, SamePad e) ∧
      ∀ q c x pad, k.conn q = some c → q.SameFlow x →
        (flowConnection k pad x = some c ↔ q.pad = pad) := by
  refine ⟨fun t q x p hs hroom => hitsEntry_iff hs hroom, ?_, fun q c x pad hc hs => ?_⟩
  · refine forall_congr' fun e => forall_congr' fun he => ?_
    obtain ⟨tr₁, hr⟩ := h.reached he
    exact event_findsFlow (run_rep hr)
  · exact conn_flow_iff (x := { x with pad }) (run_rep h) hc hs

end

theorem found_by_flow_iff_peerOpens : ∃ (tr : List (machine rfcCksum).Event) (k : Core),
    Machine.Run tr k ∧ k.stateOf peerQuad = some .established ∧
      (∀ (t : RteHash) q x p, q.SameFlow x → t.Room q → (HitsEntry t q x p ↔ q.pad = x.pad)) ∧
      ((∀ e ∈ tr, FindsFlow e) ↔ ∀ e ∈ tr, SamePad e) ∧
      ∀ q c x pad, k.conn q = some c → q.SameFlow x →
        (flowConnection k pad x = some c ↔ q.pad = pad) := by
  obtain ⟨tr, k, hr, hk⟩ := Machine.exists_run (host_init rfcCksum) peerOpens
    (Q := fun r => r.2.stateOf peerQuad = some .established) (by decide +kernel)
  exact ⟨tr, k, hr, of_decide_eq_true hk, found_by_flow_iff hr⟩

/-- Two keys that differ in a gap are two keys to the table, and a close whose quad
has other bytes there does not find the connection. -/
theorem not_found_by_flow :
    (¬∀ (t : RteHash) q x p, q.SameFlow x → t.Room q → HitsEntry t q x p) ∧
      ¬∀ (tr : List (machine rfcCksum).Event) (k : Core), Machine.Run tr k → ∀ e ∈ tr, FindsFlow e := by
  constructor
  · intro h
    have hhit := (h Store.Table.empty peerQuad { peerQuad with pad := 1 } 0 ⟨rfl, rfl, rfl, rfl⟩
      (by decide)).1
    exact absurd hhit (by decide)
  · intro h
    obtain ⟨tr, k, hr, e, he, hQ⟩ := Machine.exists_event (host_init rfcCksum)
      (peerOpens ++ [⟨.close peerQuad, { calm with pad := 1 }⟩])
      (Q := fun e => (e.pre.conn peerQuad).isSome ∧ (e.pre.conn (eventKey e)).isNone ∧
        eventKey e = { peerQuad with pad := 1 }) (by decide +kernel)
    obtain ⟨hpre, hno, hkey⟩ := of_decide_eq_true hQ
    obtain ⟨c, hc⟩ := Option.isSome_iff_exists.mp hpre
    have hfound := h tr k hr e he peerQuad c hc (by rw [hkey]; exact ⟨rfl, rfl, rfl, rfl⟩)
    rw [hfound] at hno
    cases hno

/-! ## Under the key -/

/-- The ends of a segment, as they stand in its headers. -/
structure Route where
  srcAddr : BitVec 32
  dstAddr : BitVec 32
  srcPort : BitVec 16
  dstPort : BitVec 16
  deriving DecidableEq

def Quad.route (q : Quad) : Route := ⟨q.dip, q.sip, q.dport, q.sport⟩

def Connection.route (c : Connection) : Route :=
  ⟨c.rteIpv4Hdr.srcAddr, c.rteIpv4Hdr.dstAddr, c.rteTcpHdr.srcPort, c.rteTcpHdr.dstPort⟩

def Frame.route (f : Frame) : Route :=
  ⟨f.ipv4.srcAddr, f.ipv4.dstAddr, f.tcp.srcPort, f.tcp.dstPort⟩

def Connection.Routed (c : Connection) : Prop := c.route = c.q.route

structure Connection.Represents (c : Connection) (nic : Nic) (q : Quad) : Prop where
  key : c.q = q
  here : q.dip = nic.ip
  route : c.route = q.route
  quiet : c.Quiet

section
variable {K : RteCksum}

@[simp] theorem txFlag_route (flag : Byte) (c : Connection) : (txFlag flag c).route = c.route := by
  unfold txFlag; split <;> rfl

@[simp] theorem sent_route (K : RteCksum) (c : Connection) (n : BitVec 64) :
    (c.sent K n).route = c.route := by
  unfold Connection.sent
  rw [txFlag_route, txFlag_route]
  rfl

theorem sent_routed {c : Connection} {n : BitVec 64} (h : c.Routed) : (c.sent K n).Routed := by
  unfold Connection.Routed
  rw [sent_route, sent_q]
  exact h

theorem sendP_route {env : Env} {t : Tcp} {c : Connection} {data : Mem} {n m : BitVec 64}
    {frames : List Frame} (h : sendP env t (txHeaders K c n) data m = some frames) :
    ∀ f ∈ frames, f.route = c.route := by
  intro f hf
  rcases sendP_some h with ⟨rfl, -⟩ | ⟨rfl, -, -⟩
  · cases hf
  · rw [List.mem_singleton] at hf
    subst hf
    rfl

section
variable {env : Env} {t : Tcp}

theorem rx_routed {c : Connection} {s : Seg} {o : Option Connection} {out : Out}
    (h : Rx K env t c s o out) (hc : c.Routed) :
    (∀ c', o = some c' → c'.Routed) ∧ ∀ f ∈ out.frames, f.route = c.q.route := by
  have silent : ∀ f ∈ ({} : Out).frames, f.route = c.q.route := fun f hf => nomatch hf
  have one : ∀ {c' : Connection}, c'.Routed → ∀ d, some c' = some d → d.Routed := by
    intro c' hc' d hd
    cases hd
    exact hc'
  cases h with
  | ignored _ => exact ⟨one hc, silent⟩
  | synAgain _ _ _ hp => exact ⟨one (sent_routed hc), fun f hf => (sendP_route hp f hf).trans hc⟩
  | synAcked _ _ _ => exact ⟨one hc, silent⟩
  | @synAnswered d _ _ hd hp =>
    have hdr : (d.synAnswered s).Routed ∧ d.route = c.route := by
      rcases hd with ⟨-, rfl⟩ | ⟨-, rfl⟩ <;> exact ⟨hc, rfl⟩
    exact ⟨one (sent_routed hdr.1), fun f hf => ((sendP_route hp f hf).trans hdr.2).trans hc⟩
  | finAnswered _ _ _ hp =>
    refine ⟨one ?_, fun f hf => (sendP_route hp f hf).trans hc⟩
    exact sent_routed (c := c.finAnswered s) (n := sizeT s.size) hc
  | acked _ _ _ _ => exact ⟨one hc, silent⟩
  | dataAnswered _ _ _ _ hp =>
    exact ⟨one (sent_routed hc), fun f hf => (sendP_route hp f hf).trans hc⟩
  | finAcked _ _ _ hp => exact ⟨fun _ h => (nomatch h), fun f hf => (sendP_route hp f hf).trans hc⟩
  | finAcked2 _ _ hp => exact ⟨fun _ h => (nomatch h), fun f hf => (sendP_route hp f hf).trans hc⟩
  | closed _ => exact ⟨fun _ h => (nomatch h), silent⟩

theorem slot_routed {op : Op} {o o' : Option Connection} {out : Out} (h : Slot K env t op o o' out)
    (hP : ∀ c, o = some c → c.Routed) : ∀ c, o' = some c → c.Routed := by
  intro c' hc'
  cases h with
  | dropped _ => exact hP c' hc'
  | unknown _ _ => cases hc'
  | @opened _ s g _ _ _ _ _ _ ho =>
    rcases ho with rfl | rfl
    · cases hc'
      exact sent_routed (c := listenConnection g s) rfl
    · cases hc'
  | handled _ hrx => exact (rx_routed hrx (hP _ rfl)).1 c' hc'
  | @connected dip dport sport g _ _ _ _ ho =>
    rcases ho with rfl | rfl
    · cases hc'
      exact sent_routed (c := connectConnection g (connectQuad t.nic env.pad dip dport sport)) rfl
    · cases hc'
  | present => exact hP c' hc'
  | noClose => cases hc'
  | noSend => cases hc'
  | @finSent _ c _ _ =>
    cases hc'
    exact sent_routed (c := c.finRaised) (n := 0) (hP c rfl)
  | @dataSent _ data c _ _ =>
    cases hc'
    exact sent_routed (c := c.loaded (tokenMem data) (BitVec.ofNat 32 data.length)) (hP c rfl)

theorem slot_route {i : Input} {o o' : Option Connection} {out : Out}
    (h : Slot K i.env t i.op o o' out) (hq : ∀ c, o = some c → c.q = keyOf t.nic i)
    (hP : ∀ c, o = some c → c.Routed) : ∀ f ∈ out.frames, f.route = (keyOf t.nic i).route := by
  have silent : ∀ f ∈ ({} : Out).frames, f.route = (keyOf t.nic i).route := fun f hf => nomatch hf
  obtain ⟨op, env⟩ := i
  cases h with
  | dropped _ => exact silent
  | unknown _ _ => exact silent
  | @opened p s _ _ _ hs _ _ hp _ =>
    intro f hf
    rw [sendP_route hp f hf]
    obtain ⟨-, rfl⟩ := rxSegment_some hs
    rfl
  | @handled _ _ c _ _ _ hrx =>
    rw [← hq c rfl]
    exact (rx_routed hrx (hP c rfl)).2
  | connected _ hp _ => exact fun f hf => sendP_route hp f hf
  | present => exact silent
  | noClose => exact silent
  | noSend => exact silent
  | @finSent _ c _ hp =>
    rw [← hq c rfl]
    exact fun f hf => (sendP_route hp f hf).trans (hP c rfl)
  | @dataSent _ _ c _ hp =>
    rw [← hq c rfl]
    exact fun f hf => (sendP_route hp f hf).trans (hP c rfl)

theorem slot_here {i : Input} {o : Option Connection} {out : Out} (h : Slot K i.env t i.op none o out)
    (ho : o ≠ none ∨ out.frames ≠ []) : (keyOf t.nic i).dip = t.nic.ip := by
  obtain ⟨op, env⟩ := i
  have nothing : ¬((none : Option Connection) ≠ none ∨ ({} : Out).frames ≠ []) := by simp
  cases h with
  | dropped _ => exact absurd ho nothing
  | unknown _ _ => exact absurd ho nothing
  | opened hs _ _ _ _ => exact (rxSegment_some hs).1.symm
  | connected _ _ _ => rfl
  | noClose => exact absurd ho nothing
  | noSend => exact absurd ho nothing

end

theorem event_nic {e : (machine K).Event} (hrep : e.pre.Rep) : e.post.tcp.nic = e.pre.tcp.nic := by
  obtain ⟨o, ht, -⟩ := step_slot hrep e.fired
  exact ht.nic

theorem run_here {tr : List (machine K).Event} {k : Core} (h : Machine.Run tr k) :
    ∀ q c, k.conn q = some c → q.dip = k.tcp.nic.ip := by
  refine Machine.Run.induct (P := fun _ k => ∀ q c, k.conn q = some c → q.dip = k.tcp.nic.ip) ?_ ?_ h
  · intro s ⟨nic, last, hs⟩ q c hc
    subst hs
    cases hc
  · intro tr e hr ih q c hc
    rw [event_nic (run_rep hr)]
    rcases event_at e (run_rep hr) q with hsame | ⟨rfl, hslot⟩
    · exact ih q c (hsame ▸ hc)
    · cases hpre : e.pre.conn (eventKey e) with
      | some d => exact ih _ d hpre
      | none =>
        rw [hpre, hc] at hslot
        exact slot_here hslot (Or.inl (Option.some_ne_none c))

/-- In every run every entry of the table is what its key says, and every frame goes
from the host's end of the key it is about to the peer's. -/
theorem represents_run {tr : List (machine K).Event} {k : Core} (h : Machine.Run tr k) :
    (∀ q p, k.tcp.rteHash.lookup q = some p →
      ∃ c, k.heap.read p = some c ∧ c.Represents k.tcp.nic q) ∧
      ∀ e ∈ tr, ∀ f ∈ e.out.frames,
        f.route = (eventKey e).route ∧ (eventKey e).dip = e.pre.tcp.nic.ip := by
  constructor
  · intro q p hl
    obtain ⟨c, hr, hq⟩ := run_rep h q p hl
    have hc : k.conn q = some c := conn_of_lookup hl hr
    have hroute : c.Routed := run_conn slot_routed h q c hc
    unfold Connection.Routed at hroute
    rw [hq] at hroute
    exact ⟨c, hr, hq, run_here h q c hc, hroute, run_quiet h q c hc⟩
  · intro e he f hf
    obtain ⟨tr₁, hr⟩ := h.reached he
    have hslot := (event_slot e (run_rep hr)).2
    refine ⟨slot_route hslot (fun c hc => (run_rep hr).key hc) (run_conn slot_routed hr _) f hf, ?_⟩
    cases hpre : e.pre.conn (eventKey e) with
    | some c => exact run_here hr _ c hpre
    | none =>
      rw [hpre] at hslot
      exact slot_here hslot (Or.inr (List.ne_nil_of_mem hf))

end

/-! ## On the host -/

theorem represents_run_peerOpens : ∃ (tr : List (machine rfcCksum).Event) (k : Core),
    Machine.Run tr k ∧ k.tcp.rteHash.lookup peerQuad = some 0 ∧
      (∀ q p, k.tcp.rteHash.lookup q = some p →
        ∃ c, k.heap.read p = some c ∧ c.Represents k.tcp.nic q) ∧
      ∀ e ∈ tr, ∀ f ∈ e.out.frames,
        f.route = (eventKey e).route ∧ (eventKey e).dip = e.pre.tcp.nic.ip := by
  obtain ⟨tr, k, hr, hk⟩ := Machine.exists_run (host_init rfcCksum) peerOpens
    (Q := fun r => r.2.tcp.rteHash.lookup peerQuad = some 0) (by decide +kernel)
  exact ⟨tr, k, hr, of_decide_eq_true hk, represents_run hr⟩

end TcpDpdk

import TcpDpdk.Core

/-!
# What a step does to a connection

The table of a core maps keys to pointers. `Core.Rep` is the invariant that makes
a table entry a slot of its own: it points to a live connection that carries the
same key, so that no two entries share one. Under it a step touches the slot of
one key only, and `Slot` lists everything that can happen there, one constructor
for each path through the dispatch and the commands.
-/

namespace TcpDpdk

def Core.Rep (k : Core) : Prop :=
  ∀ q p, k.tcp.rteHash.lookup q = some p → ∃ c, k.heap.read p = some c ∧ c.q = q

def Core.conn (k : Core) (q : Quad) : Option Connection :=
  (k.tcp.rteHash.lookup q).bind k.heap.read

/-- A step that may have changed the slot of `q`, to `o`, and no other. -/
structure Touch (k k' : Core) (q : Quad) (o : Option Connection) : Prop where
  nic : k'.tcp.nic = k.tcp.nic
  rep : k'.Rep
  at_key : k'.conn q = o
  others : ∀ x, x ≠ q → k'.conn x = k.conn x

section
variable {k : Core} {q : Quad}

theorem conn_of_lookup {p : Nat} {c : Connection} (hl : k.tcp.rteHash.lookup q = some p)
    (hr : k.heap.read p = some c) : k.conn q = some c := by
  unfold Core.conn; rw [hl]; exact hr

theorem conn_none (hl : k.tcp.rteHash.lookup q = none) : k.conn q = none := by
  unfold Core.conn; rw [hl]; rfl

theorem lookup_of_conn_none (h : k.Rep) (hq : k.conn q = none) :
    k.tcp.rteHash.lookup q = none := by
  by_contra hne
  obtain ⟨p, hl⟩ := Option.ne_none_iff_exists'.mp hne
  obtain ⟨c, hr, -⟩ := h q p hl
  cases hq.symm.trans (conn_of_lookup hl hr)

theorem Touch.refl (h : k.Rep) : Touch k k q (k.conn q) := ⟨rfl, h, rfl, fun _ _ => rfl⟩

theorem Core.Rep.ne (h : k.Rep) {x : Quad} {p p' : Nat} (hl : k.tcp.rteHash.lookup q = some p)
    (hx : k.tcp.rteHash.lookup x = some p') (hne : x ≠ q) : p' ≠ p := by
  rintro rfl
  obtain ⟨c, hr, hc⟩ := h q p' hl
  obtain ⟨c', hr', hc'⟩ := h x p' hx
  rw [hr] at hr'
  cases hr'
  exact hne (hc'.symm.trans hc)

theorem Core.Rep.key (h : k.Rep) {c : Connection} (hc : k.conn q = some c) : c.q = q := by
  unfold Core.conn at hc
  obtain ⟨p, hl, hr⟩ := Option.bind_eq_some_iff.mp hc
  obtain ⟨c', hr', hq⟩ := h q p hl
  rw [hr] at hr'
  cases hr'
  exact hq

/-! ## The four ways a slot is changed -/

section
variable {p : Nat} {c' : Connection} (h : k.Rep) (hl : k.tcp.rteHash.lookup q = some p)
include h hl

section
variable {m : Store.Heap Connection} (hm : ∀ x, x ≠ p → m.read x = k.heap.read x)
include hm

-- a change of the object under `q` is not seen under another key
theorem entry_elsewhere {x : Quad} {px : Nat} (hx : k.tcp.rteHash.lookup x = some px) (hne : x ≠ q) :
    ∃ d, m.read px = some d ∧ d.q = x := by
  obtain ⟨d, hd, hdq⟩ := h x px hx
  exact ⟨d, (hm px (h.ne hl hx hne)).trans hd, hdq⟩

theorem conn_elsewhere {x : Quad} (hne : x ≠ q) :
    (k.tcp.rteHash.lookup x).bind m.read = k.conn x := by
  unfold Core.conn
  cases hlx : k.tcp.rteHash.lookup x with
  | none => rfl
  | some px => exact hm px (h.ne hl hlx hne)

end

theorem touch_write {c : Connection} (hr : k.heap.read p = some c) (stats : TcpStatistics)
    (hq : c'.q = q) :
    Touch k ⟨{ k.tcp with stats }, k.heap.write p c'⟩ q (some c') := by
  have hm : ∀ x, x ≠ p → (k.heap.write p c').read x = k.heap.read x :=
    fun _ hx => Store.Heap.read_write_ne hx
  refine ⟨rfl, fun x px hx => ?_, conn_of_lookup hl (Store.Heap.read_write hr),
    fun x hx => conn_elsewhere h hl hm hx⟩
  by_cases hxq : x = q
  · subst hxq
    obtain rfl : px = p := Option.some.inj (hx.symm.trans hl)
    exact ⟨c', Store.Heap.read_write hr, hq⟩
  · exact entry_elsewhere h hl hm hx hxq

theorem touch_leave : Touch k ⟨rteHashDelKey k.tcp q, k.heap.write p c'⟩ q none := by
  have hm : ∀ x, x ≠ p → (k.heap.write p c').read x = k.heap.read x :=
    fun _ hx => Store.Heap.read_write_ne hx
  refine ⟨rfl, fun x px hx => ?_, conn_none (Store.Table.lookup_del ..), fun x hx => ?_⟩
  · obtain ⟨hxq, hx⟩ := Store.Table.lookup_of_del hx
    exact entry_elsewhere h hl hm hx hxq
  · unfold Core.conn rteHashDelKey
    rw [Store.Table.lookup_del_ne hx]
    exact conn_elsewhere h hl hm hx

theorem touch_free : Touch k ⟨rteHashDelKey (rteHashDelKey k.tcp q) q, k.heap.free p⟩ q none := by
  have hm : ∀ x, x ≠ p → (k.heap.free p).read x = k.heap.read x :=
    fun _ hx => Store.Heap.read_free_ne hx
  refine ⟨rfl, fun x px hx => ?_, conn_none (Store.Table.lookup_del ..), fun x hx => ?_⟩
  · obtain ⟨hxq, hx⟩ := Store.Table.lookup_of_del hx
    obtain ⟨-, hx⟩ := Store.Table.lookup_of_del hx
    exact entry_elsewhere h hl hm hx hxq
  · unfold Core.conn rteHashDelKey
    rw [Store.Table.lookup_del_ne hx, Store.Table.lookup_del_ne hx]
    exact conn_elsewhere h hl hm hx

end

theorem touch_add (h : k.Rep) (hl : k.tcp.rteHash.lookup q = none) {c : Connection} (hq : c.q = q) :
    ∃ o, Touch k ⟨{ k.tcp with rteHash := k.tcp.rteHash.add q k.heap.next }, k.heap.alloc c⟩ q o ∧
      (o = some c ∨ o = none) := by
  have old : ∀ x px, k.tcp.rteHash.lookup x = some px → ∃ d, k.heap.read px = some d ∧
      (k.heap.alloc c).read px = some d ∧ d.q = x := fun x px hx => by
    obtain ⟨d, hd, hdq⟩ := h x px hx
    exact ⟨d, hd, Store.Heap.read_alloc_of_read hd, hdq⟩
  have same : ∀ x, (k.tcp.rteHash.lookup x).bind (k.heap.alloc c).read = k.conn x := fun x => by
    unfold Core.conn
    cases hlx : k.tcp.rteHash.lookup x with
    | none => rfl
    | some px =>
      obtain ⟨d, hd, hd', -⟩ := old x px hlx
      exact hd'.trans hd.symm
  by_cases hroom : k.tcp.rteHash.Room q
  · refine ⟨some c, ⟨rfl, fun x px hx => ?_, ?_, fun x hx => ?_⟩, Or.inl rfl⟩
    · by_cases hxq : x = q
      · subst hxq
        obtain rfl : k.heap.next = px := Option.some.inj ((Store.Table.lookup_add hroom).symm.trans hx)
        exact ⟨c, Store.Heap.read_alloc .., hq⟩
      · obtain ⟨d, -, hd⟩ := old x px ((Store.Table.lookup_add_ne hxq).symm.trans hx)
        exact ⟨d, hd⟩
    · exact conn_of_lookup (Store.Table.lookup_add hroom) (Store.Heap.read_alloc ..)
    · rw [← same x]
      unfold Core.conn
      rw [Store.Table.lookup_add_ne hx]
  · rw [Store.Table.add_full hroom]
    refine ⟨none, ⟨rfl, fun x px hx => ?_, conn_none hl, fun x _ => same x⟩, Or.inr rfl⟩
    obtain ⟨d, -, hd⟩ := old x px hx
    exact ⟨d, hd⟩

end

/-! ## The paths through a step -/

def Connection.accepts (c : Connection) (s : Seg) : Bool :=
  match c.tcpState with
  | .synRecv =>
    if segmentCheck c s.size s.seq then ackCheck c s.ackn else s.tcpHdr.has rteTcpSynFlag
  | .established | .finWait2 => segmentCheck c s.size s.seq
  | .finWait1 => segmentCheck c s.size s.seq && ackCheck c s.ackn
  | .lastAck | .synSent => true
  | _ => false

/-- `Rx K env t c s o out`: receiving `s` on the connection `c` leaves `o` of it. -/
inductive Rx (K : RteCksum) (env : Env) (t : Tcp) (c : Connection) (s : Seg) :
    Option Connection → Out → Prop
  | ignored : c.accepts s = false → Rx K env t c s (some c) {}
  | synAgain {frames} : c.tcpState = .synRecv → segmentCheck c s.size s.seq = false →
      s.tcpHdr.has rteTcpSynFlag = true →
      sendP env t (txHeaders K c.unsent (sizeT s.size)) s.data (sizeT s.size) = some frames →
      Rx K env t c s (some (c.unsent.sent K (sizeT s.size))) { frames }
  | synAcked : c.tcpState = .synRecv → segmentCheck c s.size s.seq = true →
      ackCheck c s.ackn = true → Rx K env t c s (some { c with tcpState := .established }) {}
  | synAnswered {d frames} : c.tcpState = .synSent →
      (ackCheck c s.ackn = true ∧
          d = { c with tcpState := .established, sendSequenceSpace.una := s.ackn + 1 } ∨
        ackCheck c s.ackn = false ∧ d = c) →
      sendP env t (txHeaders K (d.synAnswered s) (sizeT s.size)) s.data (sizeT s.size) =
        some frames →
      Rx K env t c s (some ((d.synAnswered s).sent K (sizeT s.size))) { frames }
  | finAnswered {frames} : c.tcpState = .established → segmentCheck c s.size s.seq = true →
      s.tcpHdr.has rteTcpFinFlag = true →
      sendP env t (txHeaders K (c.finAnswered s) (sizeT s.size)) s.data (sizeT s.size) =
        some frames →
      Rx K env t c s
        (some { (c.finAnswered s).sent K (sizeT s.size) with tcpState := .lastAck }) { frames }
  | acked : c.tcpState = .established → segmentCheck c s.size s.seq = true →
      s.tcpHdr.has rteTcpFinFlag = false → s.size = 0 →
      Rx K env t c s (some { c with sendSequenceSpace.nxt := s.ackn }) {}
  | dataAnswered {frames} : c.tcpState = .established → segmentCheck c s.size s.seq = true →
      s.tcpHdr.has rteTcpFinFlag = false → s.size ≠ 0 →
      sendP env t (txHeaders K (c.dataAnswered s) 0) Mem.null 0 = some frames →
      Rx K env t c s (some ((c.dataAnswered s).sent K 0))
        { frames, printed := printData s.data s.size }
  | finAcked {frames} : c.tcpState = .finWait1 → segmentCheck c s.size s.seq = true →
      ackCheck c s.ackn = true →
      sendP env t (txHeaders K { c.finAcked s with tcpState := .finWait2 } 0) Mem.null 0 =
        some frames →
      Rx K env t c s none { frames }
  | finAcked2 {frames} : c.tcpState = .finWait2 → segmentCheck c s.size s.seq = true →
      sendP env t (txHeaders K (c.finAcked s) (sizeT s.size)) s.data (sizeT s.size) =
        some frames →
      Rx K env t c s none { frames }
  | closed : c.tcpState = .lastAck → Rx K env t c s none {}

/-! ### States with little choice of path -/

section
variable {K : RteCksum} {env : Env} {t : Tcp} {c : Connection} {s : Seg} {o : Option Connection}
  {out : Out}

theorem Rx.of_synSent (h : Rx K env t c s o out) (hst : c.tcpState = .synSent) : ∃ d frames,
    (ackCheck c s.ackn = true ∧
        d = { c with tcpState := .established, sendSequenceSpace.una := s.ackn + 1 } ∨
      ackCheck c s.ackn = false ∧ d = c) ∧
    o = some ((d.synAnswered s).sent K (sizeT s.size)) ∧ out = { frames } := by
  cases h with
  | ignored ha =>
    unfold Connection.accepts at ha
    rw [hst] at ha
    cases ha
  | synAnswered _ hd _ => exact ⟨_, _, hd, rfl, rfl⟩
  | synAgain h _ _ _ => cases hst.symm.trans h
  | synAcked h _ _ => cases hst.symm.trans h
  | finAnswered h _ _ _ => cases hst.symm.trans h
  | acked h _ _ _ => cases hst.symm.trans h
  | dataAnswered h _ _ _ _ => cases hst.symm.trans h
  | finAcked h _ _ _ => cases hst.symm.trans h
  | finAcked2 h _ _ => cases hst.symm.trans h
  | closed h => cases hst.symm.trans h

theorem Rx.of_finWait1 (h : Rx K env t c s o out) (hst : c.tcpState = .finWait1) :
    c.accepts s = false ∧ o = some c ∨
      segmentCheck c s.size s.seq = true ∧ ackCheck c s.ackn = true ∧ o = none := by
  cases h with
  | ignored ha => exact Or.inl ⟨ha, rfl⟩
  | finAcked _ hsc hac _ => exact Or.inr ⟨hsc, hac, rfl⟩
  | synAgain h _ _ _ => cases hst.symm.trans h
  | synAcked h _ _ => cases hst.symm.trans h
  | synAnswered h _ _ => cases hst.symm.trans h
  | finAnswered h _ _ _ => cases hst.symm.trans h
  | acked h _ _ _ => cases hst.symm.trans h
  | dataAnswered h _ _ _ _ => cases hst.symm.trans h
  | finAcked2 h _ _ => cases hst.symm.trans h
  | closed h => cases hst.symm.trans h

theorem Rx.of_lastAck (h : Rx K env t c s o out) (hst : c.tcpState = .lastAck) : o = none := by
  cases h with
  | ignored ha =>
    unfold Connection.accepts at ha
    rw [hst] at ha
    cases ha
  | closed _ => rfl
  | synAgain h _ _ _ => cases hst.symm.trans h
  | synAcked h _ _ => cases hst.symm.trans h
  | synAnswered h _ _ => cases hst.symm.trans h
  | finAnswered h _ _ _ => cases hst.symm.trans h
  | acked h _ _ _ => cases hst.symm.trans h
  | dataAnswered h _ _ _ _ => cases hst.symm.trans h
  | finAcked h _ _ _ => cases hst.symm.trans h
  | finAcked2 h _ _ => cases hst.symm.trans h

end

/-! ### All that can happen to a slot -/

/-- `Slot K env t op o o' out`: with the slot holding `o`, the step may leave `o'`. -/
inductive Slot (K : RteCksum) (env : Env) (t : Tcp) :
    Op → Option Connection → Option Connection → Out → Prop
  | dropped {p o} : rxSegment t.nic env.pad p = none → Slot K env t (.rx p) o o {}
  | unknown {p s} : rxSegment t.nic env.pad p = some s → s.tcpHdr.tcpFlags ≠ rteTcpSynFlag →
      Slot K env t (.rx p) none none {}
  | opened {p s g frames o} : rxSegment t.nic env.pad p = some s →
      s.tcpHdr.tcpFlags = rteTcpSynFlag → env.object = some g →
      sendP env t (txHeaders K (listenConnection g s) (sizeT s.size)) s.data (sizeT s.size) =
        some frames →
      o = some ((listenConnection g s).sent K (sizeT s.size)) ∨ o = none →
      Slot K env t (.rx p) none o { frames }
  | handled {p s c o out} : rxSegment t.nic env.pad p = some s → Rx K env t c s o out →
      Slot K env t (.rx p) (some c) o out
  | connected {dip dport sport g frames o} : env.object = some g →
      sendP env t (txHeaders K (connectConnection g (connectQuad t.nic env.pad dip dport sport)) 0)
        Mem.null 0 = some frames →
      o = some ((connectConnection g (connectQuad t.nic env.pad dip dport sport)).sent K 0) ∨
        o = none →
      Slot K env t (.connect dip dport sport) none o { frames }
  | present {dip dport sport c} : Slot K env t (.connect dip dport sport) (some c) (some c) {}
  | noClose {q} : Slot K env t (.close q) none none {}
  | noSend {q data} : Slot K env t (.send q data) none none {}
  | finSent {q c frames} :
      sendP env t (txHeaders K c.finRaised 0) Mem.null 0 = some frames →
      Slot K env t (.close q) (some c) (some { c.finRaised.sent K 0 with tcpState := .finWait1 })
        { frames }
  | dataSent {q data c frames} :
      sendP env t
        (txHeaders K (c.loaded (tokenMem data) (BitVec.ofNat 32 data.length))
          (sizeT (BitVec.ofNat 32 data.length)))
        (tokenMem data) (sizeT (BitVec.ofNat 32 data.length)) = some frames →
      Slot K env t (.send q data) (some c)
        (some ((c.loaded (tokenMem data) (BitVec.ofNat 32 data.length)).sent K
          (sizeT (BitVec.ofNat 32 data.length)))) { frames }

/-! ## The state diagram -/

def Connection.ReadsAck (c : Connection) (s : Seg) : Prop :=
  c.tcpState = .synSent ∨ c.tcpState = .synRecv ∧ segmentCheck c s.size s.seq = true

inductive Moves (env : Env) (t : Tcp) : Op → Option Connection → TcpState → Prop
  | stays {op c} : Moves env t op (some c) c.tcpState
  | listened {p} : Moves env t (.rx p) none .synRecv
  | connected {dip dport sport} : Moves env t (.connect dip dport sport) none .synSent
  | synAcked {p s c} : rxSegment t.nic env.pad p = some s → c.ReadsAck s →
      ackCheck c s.ackn = true → Moves env t (.rx p) (some c) .established
  | finReceived {p s c} : rxSegment t.nic env.pad p = some s → c.tcpState = .established →
      s.tcpHdr.has rteTcpFinFlag = true → Moves env t (.rx p) (some c) .lastAck
  | closed {q c} : Moves env t (.close q) (some c) .finWait1

theorem rx_moves {K : RteCksum} {env : Env} {t : Tcp} {p : Packet} {c c' : Connection} {s : Seg}
    {out : Out} (hs : rxSegment t.nic env.pad p = some s) (h : Rx K env t c s (some c') out) :
    Moves env t (.rx p) (some c) c'.tcpState := by
  cases h with
  | ignored _ => exact .stays
  | synAgain _ _ _ _ => rw [sent_tcpState]; exact .stays
  | synAcked hst hc ha => exact .synAcked hs (Or.inr ⟨hst, hc⟩) ha
  | synAnswered hst hd _ =>
    rw [sent_tcpState]
    rcases hd with ⟨ha, rfl⟩ | ⟨-, rfl⟩
    · exact .synAcked hs (Or.inl hst) ha
    · exact .stays
  | finAnswered hst _ hf _ => exact .finReceived hs hst hf
  | acked _ _ _ _ => exact .stays
  | dataAnswered _ _ _ _ _ => rw [sent_tcpState]; exact .stays

theorem slot_moves {K : RteCksum} {env : Env} {t : Tcp} {op : Op} {o o' : Option Connection}
    {out : Out} (h : Slot K env t op o o' out) {c' : Connection} (hc' : o' = some c') :
    Moves env t op o c'.tcpState := by
  cases h with
  | dropped _ => subst hc'; exact .stays
  | unknown _ _ => cases hc'
  | opened _ _ _ _ ho =>
    rcases ho with ho | ho <;> cases ho.symm.trans hc'
    rw [sent_tcpState]
    exact .listened
  | handled hs hrx => subst hc'; exact rx_moves hs hrx
  | connected _ _ ho =>
    rcases ho with ho | ho <;> cases ho.symm.trans hc'
    rw [sent_tcpState]
    exact .connected
  | present => cases hc'; exact .stays
  | noClose => cases hc'
  | noSend => cases hc'
  | finSent _ => cases hc'; exact .closed
  | dataSent _ => cases hc'; rw [sent_tcpState]; exact .stays

section
variable {K : RteCksum} {env : Env} {k k' : Core} {out : Out}

theorem rxSwitch_slot (h : k.Rep) {s : Seg} {p : Nat} {c : Connection} {r : Ret}
    (hl : k.tcp.rteHash.lookup s.q = some p) (hr : k.heap.read p = some c)
    (hw : rxSwitch K env k.tcp c s = some r) :
    ∃ o, Touch k (if c.tcpState = .lastAck then
        (⟨rteHashDelKey r.tcp s.q, k.heap.free p⟩ : Core)
      else ⟨r.tcp, k.heap.write p r.conn⟩) s.q o ∧ Rx K env k.tcp c s o r.out := by
  have hq : c.q = s.q := h.key (conn_of_lookup hl hr)
  have same : Touch k ⟨k.tcp, k.heap.write p c⟩ s.q (some c) := touch_write h hl hr k.tcp.stats hq
  unfold rxSwitch at hw
  split at hw
  · rename_i hst
    rw [if_neg (by rw [hst]; decide)]
    rcases handleTcpSynRecv_cases hw with ⟨frames, hc, hf, hp, rfl⟩ | ⟨hc, ha, stats, rfl⟩ | ⟨ha, hf, rfl⟩
    · exact ⟨_, touch_write h hl hr k.tcp.stats ((sent_q ..).trans hq), .synAgain hst hc hf hp⟩
    · exact ⟨_, touch_write h hl hr stats hq, .synAcked hst hc ha⟩
    · refine ⟨_, same, .ignored ?_⟩
      unfold Connection.accepts
      rw [hst]
      cases hc : segmentCheck c s.size s.seq with
      | true => simpa using ha hc
      | false => simpa using hf hc
  · rename_i hst
    rw [if_neg (by rw [hst]; decide)]
    rcases handleTcpEstablish_cases hw with ⟨frames, hc, hf, hp, rfl⟩ | ⟨hc, hf, h0, rfl⟩ |
      ⟨frames, hc, hf, h0, hp, rfl⟩ | ⟨hc, rfl⟩
    · exact ⟨_, touch_write h hl hr k.tcp.stats ((sent_q ..).trans hq), .finAnswered hst hc hf hp⟩
    · exact ⟨_, touch_write h hl hr k.tcp.stats hq, .acked hst hc hf h0⟩
    · exact ⟨_, touch_write h hl hr k.tcp.stats ((sent_q ..).trans hq), .dataAnswered hst hc hf h0 hp⟩
    · exact ⟨_, same, .ignored (by unfold Connection.accepts; rw [hst]; exact hc)⟩
  · rename_i hst
    obtain rfl := Option.some.inj hw
    rw [if_pos hst]
    refine ⟨none, ?_, .closed hst⟩
    have := touch_free h hl
    unfold handleTcpLastAck
    rwa [← hq] at this ⊢
  · rename_i hst
    rw [if_neg (by rw [hst]; decide)]
    obtain ⟨d, frames, hd, hp, rfl⟩ := handleTcpSynSent_cases hw
    refine ⟨_, touch_write h hl hr k.tcp.stats ?_, .synAnswered hst hd hp⟩
    rcases hd with ⟨-, rfl⟩ | ⟨-, rfl⟩ <;> exact (sent_q ..).trans hq
  · rename_i hst
    rw [if_neg (by rw [hst]; decide)]
    rcases handleTcpFinWait1_cases hw with ⟨frames, hc, ha, hp, rfl⟩ | ⟨ha, rfl⟩
    · refine ⟨none, ?_, .finAcked hst hc ha hp⟩
      rw [hq]
      exact touch_leave h hl
    · refine ⟨_, same, .ignored ?_⟩
      unfold Connection.accepts
      rw [hst]
      cases hc : segmentCheck c s.size s.seq with
      | true => simpa using ha hc
      | false => rfl
  · rename_i hst
    rw [if_neg (by rw [hst]; decide)]
    rcases handleTcpFinWait2_cases hw with ⟨frames, hc, hp, rfl⟩ | ⟨hc, rfl⟩
    · refine ⟨none, ?_, .finAcked2 hst hc hp⟩
      rw [hq]
      exact touch_leave h hl
    · exact ⟨_, same, .ignored (by unfold Connection.accepts; rw [hst]; exact hc)⟩
  · rename_i h1 h2 h3 h4 h5 h6
    obtain rfl := Option.some.inj hw
    rw [if_neg h3]
    refine ⟨_, same, .ignored ?_⟩
    unfold Connection.accepts
    split <;> simp_all

theorem cliFlow_slot (h : k.Rep) {q : Quad} {act : Connection → Option (Connection × List Frame)}
    (hq : ∀ c d frames, act c = some (d, frames) → d.q = c.q)
    (hw : cliFlow k q act = some (k', out)) :
    k.conn q = none ∧ k' = k ∧ out = {} ∨
      ∃ c d frames, k.conn q = some c ∧ act c = some (d, frames) ∧ out = { frames } ∧
        Touch k k' q (some d) := by
  unfold cliFlow at hw
  split at hw
  · rename_i hl
    cases hw
    exact Or.inl ⟨conn_none hl, rfl, rfl⟩
  · rename_i p hl
    split at hw
    · cases hw
    · rename_i c hr
      obtain ⟨⟨d, frames⟩, ha, he⟩ := Option.map_eq_some_iff.mp hw
      cases he
      refine Or.inr ⟨c, d, frames, conn_of_lookup hl hr, ha, rfl, ?_⟩
      exact touch_write h hl hr k.tcp.stats ((hq c d frames ha).trans (h.key (conn_of_lookup hl hr)))

theorem step_slot (h : k.Rep) {i : Input} (hw : step K k i = some (k', out)) :
    ∃ o, Touch k k' (keyOf k.tcp.nic i) o ∧
      Slot K i.env k.tcp i.op (k.conn (keyOf k.tcp.nic i)) o out := by
  obtain ⟨op, env⟩ := i
  cases op with
  | rx p =>
    simp only [step, tcpRxPacket] at hw
    split at hw
    · rename_i hs
      cases hw
      exact ⟨_, Touch.refl h, .dropped hs⟩
    · rename_i s hs
      have hk : keyOf k.tcp.nic ⟨.rx p, env⟩ = s.q := by
        obtain ⟨-, rfl⟩ := rxSegment_some hs
        rfl
      rw [hk]
      cases rxDispatch_some hw with
      | ignored hl hL =>
        rw [conn_none hl]
        rcases handleTcpListen_cases hL with ⟨hf, hr⟩ | ⟨g, frames, hf, hg, hp, hr⟩
        · cases hr
          exact ⟨none, conn_none hl ▸ Touch.refl h, .unknown hs hf⟩
        · cases hr
      | opened hl hL =>
        rw [conn_none hl]
        rcases handleTcpListen_cases hL with ⟨hf, hr⟩ | ⟨g, frames, hf, hg, hp, hr⟩
        · cases hr
        · cases hr
          obtain ⟨o, ht, ho⟩ := touch_add h hl
            (c := (listenConnection g s).sent K (sizeT s.size)) (sent_q ..)
          exact ⟨o, ht, .opened hs hf hg hp ho⟩
      | freed hl hr hsw hst =>
        obtain ⟨o, ht, hslot⟩ := rxSwitch_slot h hl hr hsw
        rw [if_pos hst] at ht
        rw [conn_of_lookup hl hr]
        exact ⟨o, ht, .handled hs hslot⟩
      | handled hl hr hsw hst =>
        obtain ⟨o, ht, hslot⟩ := rxSwitch_slot h hl hr hsw
        rw [if_neg hst] at ht
        rw [conn_of_lookup hl hr]
        exact ⟨o, ht, .handled hs hslot⟩
  | connect dip dport sport =>
    simp only [step, activeConnect] at hw
    split at hw
    · rename_i hl
      split at hw
      · cases hw
      · rename_i g hg
        obtain ⟨⟨d, frames⟩, hx, he⟩ := Option.map_eq_some_iff.mp hw
        cases he
        obtain ⟨rfl, hp⟩ := tcpTxPackets_some hx
        obtain ⟨o, ht, ho⟩ := touch_add h hl
          (c := (connectConnection g (connectQuad k.tcp.nic env.pad dip dport sport)).sent K 0)
          (sent_q ..)
        have hn : k.conn (keyOf k.tcp.nic ⟨.connect dip dport sport, env⟩) = none := conn_none hl
        rw [hn]
        exact ⟨o, ht, .connected hg hp ho⟩
    · rename_i p hl
      cases hw
      obtain ⟨c, hr, -⟩ := h _ p hl
      have hc : k.conn (keyOf k.tcp.nic ⟨.connect dip dport sport, env⟩) = some c :=
        conn_of_lookup hl hr
      exact ⟨_, Touch.refl h, hc ▸ .present⟩
  | close q =>
    have hact : ∀ c d frames, activeClose K env k.tcp c = some (d, frames) → d.q = c.q ∧
        d = { c.finRaised.sent K 0 with tcpState := .finWait1 } ∧
          sendP env k.tcp (txHeaders K c.finRaised 0) Mem.null 0 = some frames := by
      intro c d frames ha
      obtain ⟨⟨e, fs⟩, hx, he⟩ := Option.map_eq_some_iff.mp ha
      cases he
      obtain ⟨rfl, hp⟩ := tcpTxPackets_some hx
      exact ⟨sent_q .., rfl, hp⟩
    rcases cliFlow_slot h (fun c d fs ha => (hact c d fs ha).1) hw with
      ⟨hn, rfl, rfl⟩ | ⟨c, d, frames, hc, ha, rfl, ht⟩
    · exact ⟨_, Touch.refl h, hn ▸ .noClose⟩
    · obtain ⟨-, rfl, hp⟩ := hact c d frames ha
      exact ⟨_, ht, hc ▸ .finSent hp⟩
  | send q data =>
    have hact : ∀ c d frames, activeSendData K env k.tcp c (tokenMem data)
        (BitVec.ofNat 32 data.length) = some (d, frames) → d.q = c.q := by
      intro c d frames ha
      obtain ⟨rfl, -⟩ := tcpTxPackets_some ha
      exact sent_q ..
    rcases cliFlow_slot h hact hw with ⟨hn, rfl, rfl⟩ | ⟨c, d, frames, hc, ha, rfl, ht⟩
    · exact ⟨_, Touch.refl h, hn ▸ .noSend⟩
    · obtain ⟨rfl, hp⟩ := tcpTxPackets_some ha
      exact ⟨_, ht, hc ▸ .dataSent hp⟩

end

/-! ## Runs of a core -/

theorem rep_init (nic : Nic) (last : BitVec 64) : (initializeTcp nic last).Rep :=
  fun _ _ hl => nomatch hl

section
variable {K : RteCksum}

theorem run_rep {tr : List (machine K).Event} {k : Core} (h : Machine.Run tr k) : k.Rep := by
  refine Machine.Run.inv ?_ (fun e he => ?_) h
  · rintro _ ⟨nic, last, rfl⟩
    exact rep_init nic last
  · obtain ⟨o, ht, -⟩ := step_slot he e.fired
    exact ht.rep

def eventKey (e : (machine K).Event) : Quad := keyOf e.pre.tcp.nic e.input

theorem event_slot (e : (machine K).Event) (h : e.pre.Rep) :
    (∀ q, q ≠ eventKey e → e.post.conn q = e.pre.conn q) ∧
      Slot K e.input.env e.pre.tcp e.input.op (e.pre.conn (eventKey e)) (e.post.conn (eventKey e))
        e.out := by
  obtain ⟨o, ht, hs⟩ := step_slot h e.fired
  exact ⟨ht.others, by rw [show e.post.conn (eventKey e) = o from ht.at_key]; exact hs⟩

def Core.stateOf (k : Core) (q : Quad) : Option TcpState := (k.conn q).map (·.tcpState)

theorem stateOf_eq {k : Core} {q : Quad} {st : TcpState} :
    k.stateOf q = some st ↔ ∃ c, k.conn q = some c ∧ c.tcpState = st :=
  Option.map_eq_some_iff

def InTable (q : Quad) (e : (machine K).Event) : Prop := e.post.conn q ≠ none

def opSegment (nic : Nic) (pad : BitVec 32) : Op → Option Seg
  | .rx p => rxSegment nic pad p
  | _ => none

def segOf (e : (machine K).Event) : Option Seg :=
  opSegment e.pre.tcp.nic e.input.env.pad e.input.op

theorem segOf_key {e : (machine K).Event} {s : Seg} (hs : segOf e = some s) : eventKey e = s.q := by
  unfold segOf opSegment at hs
  unfold eventKey keyOf
  split at hs
  · rename_i p hop
    obtain ⟨-, rfl⟩ := rxSegment_some hs
    rw [hop]
  · cases hs

theorem event_rx {e : (machine K).Event} (h : e.pre.Rep) {s : Seg} {c : Connection}
    (hs : segOf e = some s) (hc : e.pre.conn s.q = some c) :
    Rx K e.input.env e.pre.tcp c s (e.post.conn s.q) e.out := by
  have hslot := (event_slot e h).2
  rw [segOf_key hs, hc] at hslot
  unfold segOf at hs
  generalize hop : e.input.op = op at hslot hs
  generalize e.post.conn s.q = o' at hslot ⊢
  generalize e.out = out at hslot ⊢
  cases hslot with
  | dropped hd => cases hd.symm.trans hs
  | handled hs' hrx => cases hs'.symm.trans hs; exact hrx
  | present => cases hs
  | finSent _ => cases hs
  | dataSent _ => cases hs

theorem event_at (e : (machine K).Event) (h : e.pre.Rep) (q : Quad) :
    e.post.conn q = e.pre.conn q ∨ q = eventKey e ∧
      Slot K e.input.env e.pre.tcp e.input.op (e.pre.conn q) (e.post.conn q) e.out := by
  obtain ⟨hothers, hslot⟩ := event_slot e h
  by_cases hq : q = eventKey e
  · subst hq
    exact Or.inr ⟨rfl, hslot⟩
  · exact Or.inl (hothers q hq)

/-- A property of connections holds of every connection in the table once each way
a slot changes keeps it. -/
theorem run_conn {P : Connection → Prop}
    (hs : ∀ {env t op o o' out}, Slot K env t op o o' out → (∀ c, o = some c → P c) →
      ∀ c, o' = some c → P c)
    {tr : List (machine K).Event} {k : Core} (h : Machine.Run tr k) :
    ∀ q c, k.conn q = some c → P c := by
  refine Machine.Run.induct (P := fun _ k => ∀ q c, k.conn q = some c → P c) ?_ ?_ h
  · rintro _ ⟨nic, last, rfl⟩ q c hc
    cases hc
  · intro tr e hr ih q c hc
    rcases event_at e (run_rep hr) q with hsame | ⟨-, hslot⟩
    · exact ih q c (hsame ▸ hc)
    · exact hs hslot (ih q) c hc

theorem rx_quiet {env : Env} {t : Tcp} {c : Connection} {s : Seg} {o : Option Connection} {out : Out}
    (h : Rx K env t c s o out) (hq : c.Quiet) : ∀ c', o = some c' → c'.Quiet := by
  intro c' hc'
  cases h with
  | ignored _ => cases hc'; exact hq
  | synAgain _ _ _ _ => cases hc'; exact sent_quiet ..
  | synAcked _ _ _ => cases hc'; exact hq
  | synAnswered _ _ _ => cases hc'; exact sent_quiet ..
  | finAnswered _ _ _ _ => cases hc'; exact sent_quiet ..
  | acked _ _ _ _ => cases hc'; exact hq
  | dataAnswered _ _ _ _ _ => cases hc'; exact sent_quiet ..
  | finAcked _ _ _ _ => cases hc'
  | finAcked2 _ _ _ => cases hc'
  | closed _ => cases hc'

theorem slot_quiet {env : Env} {t : Tcp} {op : Op} {o o' : Option Connection} {out : Out}
    (h : Slot K env t op o o' out) (hq : ∀ c, o = some c → c.Quiet) : ∀ c, o' = some c → c.Quiet := by
  intro c' hc'
  cases h with
  | dropped _ => exact hq c' hc'
  | unknown _ _ => cases hc'
  | opened _ _ _ _ ho =>
    rcases ho with rfl | rfl
    · cases hc'; exact sent_quiet ..
    · cases hc'
  | handled _ h => exact rx_quiet h (hq _ rfl) c' hc'
  | connected _ _ ho =>
    rcases ho with rfl | rfl
    · cases hc'; exact sent_quiet ..
    · cases hc'
  | present => exact hq c' hc'
  | noClose => cases hc'
  | noSend => cases hc'
  | finSent _ => cases hc'; exact sent_quiet ..
  | dataSent _ => cases hc'; exact sent_quiet ..

theorem run_quiet {tr : List (machine K).Event} {k : Core} (h : Machine.Run tr k) :
    ∀ q c, k.conn q = some c → c.Quiet := run_conn slot_quiet h

theorem run_not_finWait2 {tr : List (machine K).Event} {k : Core} (h : Machine.Run tr k) :
    ∀ q c, k.conn q = some c → c.tcpState ≠ .finWait2 := by
  refine run_conn (P := fun c => c.tcpState ≠ .finWait2) (fun hslot hP c' hc' => ?_) h
  have hm := slot_moves hslot hc'
  intro hst
  generalize c'.tcpState = st at hm hst
  cases hm with
  | stays => exact hP _ rfl hst
  | listened => cases hst
  | connected => cases hst
  | synAcked _ _ _ => cases hst
  | finReceived _ _ _ => cases hst
  | closed => cases hst

end

end TcpDpdk

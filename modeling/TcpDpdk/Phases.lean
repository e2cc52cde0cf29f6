import TcpDpdk.CliProcess
import TcpDpdk.Talk

/-!
# The phases of a session

The left host connects, both send, one of them closes, and each waits with what it
does until nothing is under way. `Phase` is where the conversation stands, `Shows` what
the two ends and the wire look like then; `deliver_phase` and `act_phase` take it from
one to the next.
-/

namespace TcpDpdk

open Duplex (Side)

/-! ## Phases -/

inductive Phase where
  | idle | synOut | synAcked | ackOut | settled
  /-- data on its way to the side, or the acknowledgment of data -/
  | dataOut (j : Side) (data : List Byte) | dataAcked (j : Side)
  /-- a FIN, its answer, and the acknowledgment of that on their way to the side -/
  | finOut (j : Side) | finAnswered (j : Side) | lastOut (j : Side)
  /-- closed by the side, with or without success -/
  | done (i : Side) | refused (i : Side)

/-- How many segments are still to be delivered. -/
def Phase.left : Phase → Nat
  | .synOut | .finOut _ => 3
  | .synAcked | .dataOut _ _ | .finAnswered _ => 2
  | .ackOut | .dataAcked _ | .lastOut _ => 1
  | .idle | .settled | .done _ | .refused _ => 0

def Phase.closer : Phase → Option Side
  | .finOut j | .lastOut j => some j.other
  | .finAnswered i | .done i | .refused i => some i
  | _ => none

@[ext] structure Sight where
  nic : Side → Nic
  conn : Side → Option Connection
  toward : Side → List Packet
  said : Side → List Byte
  heard : Side → List Byte

/-- What `snd.una` of an established connection is, for as long as it is established. -/
def firstAck : Side → BitVec 32
  | .left => iss + 2
  | .right => iss

def seqno (l : List Byte) : BitVec 32 := iss + 1 + BitVec.ofNat 32 l.length

/-- The acknowledgment of a FIN sent behind `l` is less than half the circle away. -/
def Reaches (i : Side) (l : List Byte) : Prop :=
  Circle.fwd (firstAck i) (seqno l + 1) + 1 < 2 ^ 31

namespace Sight

variable (φ : Flow) (v : Sight)

def End (i : Side) (st : TcpState) (una nxt rcv : BitVec 32) : Prop :=
  ∃ c, v.conn i = some c ∧ c.Stands st una nxt rcv

def Still : Prop := ∀ i, v.toward i = []

def Even : Prop := ∀ i, v.heard i = v.said i.other

def Silent : Prop := ∀ i, v.said i = [] ∧ v.heard i = []

/-- One segment is under way, to the side `j`. -/
def Flight (j : Side) (flags : Byte) (seq ackn : BitVec 32) (data : List Byte) : Prop :=
  ∃ p s, v.toward j = [p] ∧ v.toward j.other = [] ∧
    Brings (v.nic j) (φ.key v.nic j) p flags seq ackn data s

def SynFlight : Prop :=
  ∃ p s, v.toward .right = [p] ∧ v.toward .left = [] ∧
    Brings (v.nic .right) (φ.key v.nic .right) p rteTcpSynFlag iss iss [] s ∧
    rteBeToCpu16 s.tcpHdr.rxWin ≠ 0

def Ready (i : Side) : Prop :=
  v.End i .established (firstAck i) (seqno (v.said i)) (seqno (v.heard i))

def Shows : Phase → Prop
  | .idle => (∀ i, v.conn i = none) ∧ v.Still ∧ v.Silent
  | .synOut => v.End .left .synSent iss (iss + 1) iss ∧ v.conn .right = none ∧ v.SynFlight φ ∧
      v.Silent
  | .synAcked => v.End .left .synSent iss (iss + 1) iss ∧
      v.End .right .synRecv iss (iss + 1) (iss + 1) ∧
      v.Flight φ .left (rteTcpSynFlag ||| rteTcpAckFlag) iss (iss + 1) [] ∧ v.Silent
  | .ackOut => v.End .left .established (iss + 2) (iss + 1) (iss + 1) ∧
      v.End .right .synRecv iss (iss + 1) (iss + 1) ∧
      v.Flight φ .right rteTcpAckFlag (iss + 1) (iss + 1) [] ∧ v.Silent
  | .settled => (∀ i, v.Ready i) ∧ v.Still ∧ v.Even
  | .dataOut j data =>
      v.End j.other .established (firstAck j.other) (seqno (v.heard j)) (seqno (v.heard j.other)) ∧
      v.Ready j ∧ v.heard j.other = v.said j ∧ v.said j.other = v.heard j ++ data ∧ data ≠ [] ∧
      data.length ≤ 65495 ∧
      v.Flight φ j (rteTcpAckFlag ||| rteTcpPshFlag) (seqno (v.heard j)) (seqno (v.heard j.other))
        data
  | .dataAcked j => (∃ nxt, v.End j .established (firstAck j) nxt (seqno (v.heard j))) ∧
      v.Ready j.other ∧ v.Even ∧
      v.Flight φ j rteTcpAckFlag (seqno (v.said j.other)) (seqno (v.heard j.other)) []
  | .finOut j => v.End j.other .finWait1 (firstAck j.other) (seqno (v.said j.other) + 1)
        (seqno (v.heard j.other)) ∧
      v.Ready j ∧ v.Even ∧
      v.Flight φ j (rteTcpFinFlag ||| rteTcpAckFlag) (seqno (v.said j.other))
        (seqno (v.heard j.other)) []
  | .finAnswered i => v.End i .finWait1 (firstAck i) (seqno (v.said i) + 1) (seqno (v.heard i)) ∧
      v.End i.other .lastAck (firstAck i.other) (seqno (v.said i.other) + 1)
        (seqno (v.heard i.other) + 1) ∧
      v.Even ∧
      v.Flight φ i (rteTcpFinFlag ||| rteTcpAckFlag) (seqno (v.said i.other))
        (seqno (v.heard i.other) + 1) []
  | .lastOut j => v.conn j.other = none ∧ (∃ una nxt rcv, v.End j .lastAck una nxt rcv) ∧ v.Even ∧
      (∃ seq ackn, v.Flight φ j rteTcpAckFlag seq ackn []) ∧ Reaches j.other (v.said j.other)
  | .done i => (∀ j, v.conn j = none) ∧ v.Still ∧ v.Even ∧ Reaches i (v.said i)
  | .refused i => (∃ una nxt rcv, v.End i .finWait1 una nxt rcv) ∧
      (∃ una nxt rcv, v.End i.other .lastAck una nxt rcv) ∧ v.Still ∧ v.Even ∧
      ¬Reaches i (v.said i)

/-- Side `i` takes a segment or a command: it is left with `o`, the wire to it with
`rest`, and the frames are under way to the other side. -/
def move (i : Side) (o : Option Connection) (rest : List Packet) (frames : List Frame)
    (speaks prints : List Byte) : Sight where
  nic := v.nic
  conn := Function.update v.conn i o
  toward := Function.update (Function.update v.toward i rest) i.other
    (v.toward i.other ++ frames.map Frame.packet)
  said := Function.update v.said i (v.said i ++ speaks)
  heard := Function.update v.heard i (v.heard i ++ prints)

section
variable {v} {i : Side} {o : Option Connection} {rest : List Packet} {frames : List Frame}
  {speaks prints : List Byte}

@[simp] theorem move_nic : (v.move i o rest frames speaks prints).nic = v.nic := rfl

@[simp] theorem move_conn : (v.move i o rest frames speaks prints).conn i = o :=
  Function.update_self ..

@[simp] theorem move_conn_other :
    (v.move i o rest frames speaks prints).conn i.other = v.conn i.other :=
  Function.update_of_ne i.other_ne ..

@[simp] theorem move_toward : (v.move i o rest frames speaks prints).toward i = rest := by
  simp [move]

@[simp] theorem move_toward_other : (v.move i o rest frames speaks prints).toward i.other =
    v.toward i.other ++ frames.map Frame.packet := Function.update_self ..

@[simp] theorem move_said : (v.move i o rest frames speaks prints).said i = v.said i ++ speaks :=
  Function.update_self ..

@[simp] theorem move_said_other :
    (v.move i o rest frames speaks prints).said i.other = v.said i.other :=
  Function.update_of_ne i.other_ne ..

@[simp] theorem move_heard : (v.move i o rest frames speaks prints).heard i = v.heard i ++ prints :=
  Function.update_self ..

@[simp] theorem move_heard_other :
    (v.move i o rest frames speaks prints).heard i.other = v.heard i.other :=
  Function.update_of_ne i.other_ne ..

end

theorem Still.all {v : Sight} (i : Side) (h : v.toward i = []) (h' : v.toward i.other = []) :
    v.Still := (Side.forall_iff i).mpr ⟨h, h'⟩

section
variable {v} {i : Side} {o : Option Connection} {rest : List Packet} {frames : List Frame}
  {speaks prints : List Byte}

theorem move_end {st : TcpState} {una nxt rcv : BitVec 32} :
    (v.move i o rest frames speaks prints).End i st una nxt rcv ↔
      ∃ c, o = some c ∧ c.Stands st una nxt rcv := by
  unfold End
  rw [move_conn]

theorem move_end_other {st : TcpState} {una nxt rcv : BitVec 32} :
    (v.move i o rest frames speaks prints).End i.other st una nxt rcv ↔
      v.End i.other st una nxt rcv := by
  unfold End
  rw [move_conn_other]

theorem move_ready_other :
    (v.move i o rest frames speaks prints).Ready i.other ↔ v.Ready i.other := by
  unfold Ready
  rw [move_end_other, move_said_other, move_heard_other]

theorem move_still (h : v.toward i.other = []) : (v.move i o [] [] speaks prints).Still := by
  intro j
  rcases i.eq_or_other j with rfl | rfl
  · rw [move_toward]
  · rw [move_toward_other, h]
    rfl

theorem move_even (h : v.Even) : (v.move i o rest frames [] []).Even := by
  intro j
  rcases i.eq_or_other j with rfl | rfl
  · rw [move_heard, move_said_other, List.append_nil]
    exact h j
  · rw [move_heard_other, Side.other_other, move_said, List.append_nil, h, Side.other_other]

theorem move_silent (h : v.Silent) : (v.move i o rest frames [] []).Silent := by
  intro j
  rcases i.eq_or_other j with rfl | rfl
  · rw [move_heard, move_said, List.append_nil, List.append_nil]
    exact h j
  · rw [move_heard_other, move_said_other]
    exact h _

theorem flight_of_posts {φ : Flow} {flags : Byte} {seq ackn : BitVec 32} {data : List Byte}
    (h : Posts φ v.nic i frames flags seq ackn data) (hto : v.toward i.other = []) :
    (v.move i o [] frames speaks prints).Flight φ i.other flags seq ackn data := by
  obtain ⟨f, s, rfl, hs⟩ := h
  refine ⟨f.packet, s, ?_, ?_, hs⟩
  · rw [move_toward_other, hto]
    rfl
  · rw [Side.other_other, move_toward]

theorem Flight.side {φ : Flow} {j : Side} {flags : Byte} {seq ackn : BitVec 32} {data : List Byte}
    (h : v.Flight φ j flags seq ackn data) {p : Packet} (ht : v.toward i = p :: rest) :
    i = j ∧ rest = [] ∧ v.toward i.other = [] ∧
      ∃ s, Brings (v.nic i) (φ.key v.nic i) p flags seq ackn data s := by
  obtain ⟨p', s, hp, hn, hs⟩ := h
  rcases j.eq_or_other i with rfl | rfl
  · obtain ⟨rfl, rfl⟩ := List.cons.inj (ht.symm.trans hp)
    exact ⟨rfl, rfl, hn, s, hs⟩
  · cases ht.symm.trans hn

end

theorem Even.all {v : Sight} (i : Side) (h : v.heard i = v.said i.other)
    (h' : v.heard i.other = v.said i) : v.Even := (Side.forall_iff i).mpr ⟨h, by simpa using h'⟩

end Sight

/-! ## One segment further -/

/-- The core `k` of side `i` takes something that concerns the flow. -/
structure Taker (φ : Flow) (v : Sight) (i : Side) (env : Env) (k : Core) : Prop where
  joined : Joined v.nic
  here : k.tcp.nic = v.nic i
  rep : k.Rep
  conn : k.conn (φ.key v.nic i) = v.conn i
  routed : ∀ c, v.conn i = some c → c.Routed
  quiet : ∀ c, v.conn i = some c → c.Quiet
  buffer : env.mbuf = true
  gaps : env.pad = φ.pad i
  room : k.tcp.rteHash.Room (φ.key v.nic i)

section
variable {K : RteCksum} {φ : Flow} {v : Sight} {i : Side} {env : Env} {k k' : Core} {out : Out}

theorem Taker.holds (h : Taker φ v i env k) {c : Connection} (hc : v.conn i = some c) :
    Holds φ v.nic i env k.tcp c where
  joined := h.joined
  buffer := h.buffer
  here := h.here
  key := h.rep.key (h.conn.trans hc)
  routed := h.routed c hc
  quiet := h.quiet c hc

theorem slot_at {x : Input} (hrep : k.Rep) (h : step K k x = some (k', out)) :
    Slot K x.env k.tcp x.op (k.conn (keyOf k.tcp.nic x)) (k'.conn (keyOf k.tcp.nic x)) out := by
  obtain ⟨o, ht, hs⟩ := step_slot hrep h
  rw [ht.at_key]
  exact hs

theorem Taker.passes (h : Taker φ v i env k) {p : Packet} {flags : Byte} {seq ackn : BitVec 32}
    {data : List Byte} {s : Seg}
    (hb : Brings (v.nic i) (φ.key v.nic i) p flags seq ackn data s) :
    rxSegment k.tcp.nic env.pad p = some s := by
  rw [h.here, h.gaps, ← key_pad φ v.nic]
  exact hb.passes

theorem Taker.rx (h : Taker φ v i env k) {p : Packet} (hw : step K k ⟨.rx p, env⟩ = some (k', out))
    {flags : Byte} {seq ackn : BitVec 32} {data : List Byte} {s : Seg}
    (hb : Brings (v.nic i) (φ.key v.nic i) p flags seq ackn data s) {c : Connection}
    (hc : v.conn i = some c) : Rx K env k.tcp c s (k'.conn (φ.key v.nic i)) out := by
  have hs := h.passes hb
  have hk : keyOf k.tcp.nic ⟨.rx p, env⟩ = φ.key v.nic i := by
    rw [← hb.key]
    obtain ⟨-, rfl⟩ := rxSegment_some hs
    rfl
  have hslot := slot_at h.rep hw
  rw [hk, h.conn, hc] at hslot
  exact slot_handled hs hslot

/-! ### Deliveries -/

section
variable {p : Packet} {rest : List Packet} (ht : v.toward i = p :: rest) (hT : Taker φ v i env k)
  (hw : step K k ⟨.rx p, env⟩ = some (k', out))
include ht hT hw

theorem deliver_synOut (h : v.Shows φ .synOut) :
    (v.move i (k'.conn (φ.key v.nic i)) rest out.frames [] out.printed).Shows φ .synAcked := by
  obtain ⟨hl, hnew, ⟨p', s, hp, hn, hs, hwin⟩, hsil⟩ := h
  obtain rfl : i = .right := by
    rcases Side.right.eq_or_other i with h | rfl
    · exact h
    · cases ht.symm.trans hn
  obtain ⟨rfl, rfl⟩ := List.cons.inj (ht.symm.trans hp)
  obtain ⟨hconn, hpost, hprint⟩ := listen_posts hw (hT.passes hs) hs.key hs.flags hs.size hwin
    hT.rep (hT.conn.trans hnew) hT.room hT.buffer hT.joined hT.here
  rw [hs.seq] at hconn hpost
  rw [hprint]
  exact ⟨(Sight.move_end_other (i := .right)).mpr hl, Sight.move_end.mpr hconn,
    Sight.flight_of_posts (i := .right) hpost hn, Sight.move_silent hsil⟩

theorem deliver_synAcked (h : v.Shows φ .synAcked) :
    (v.move i (k'.conn (φ.key v.nic i)) rest out.frames [] out.printed).Shows φ .ackOut := by
  obtain ⟨⟨c, hc, hst⟩, hr, hf, hsil⟩ := h
  obtain ⟨rfl, rfl, hto, s, hs⟩ := hf.side ht
  have hack : ackCheck c s.ackn = true := by
    rw [ackCheck_synOut (fun _ => ⟨hst.una, hst.nxt⟩) (Or.inl hst.state), hs.ackn]
    exact Or.inr rfl
  obtain ⟨hconn, hpost, hprint⟩ := synSent_answers (hT.rx hw hs hc) hst (hT.holds hc) hs.size hack
  rw [hs.ackn, hs.seq] at hconn
  rw [hs.seq] at hpost
  rw [hprint]
  exact ⟨Sight.move_end.mpr hconn, (Sight.move_end_other (i := .left)).mpr hr,
    Sight.flight_of_posts (i := .left) hpost hto, Sight.move_silent hsil⟩

theorem deliver_ackOut (h : v.Shows φ .ackOut) :
    (v.move i (k'.conn (φ.key v.nic i)) rest out.frames [] out.printed).Shows φ .settled := by
  obtain ⟨hl, ⟨c, hc, hst⟩, hf, hsil⟩ := h
  obtain ⟨rfl, rfl, hto, s, hs⟩ := hf.side ht
  have hack : ackCheck c s.ackn = true := by
    rw [ackCheck_synOut (fun _ => ⟨hst.una, hst.nxt⟩) (Or.inr hst.state), hs.ackn]
    exact Or.inr rfl
  obtain ⟨hconn, rfl⟩ := synRecv_takes (hT.rx hw hs hc) hst hs.size hs.seq hack
  have hsil' : (v.move .right (k'.conn (φ.key v.nic .right)) [] [] [] []).Silent :=
    Sight.move_silent hsil
  have hzero : seqno [] = iss + 1 := rfl
  refine ⟨(Side.forall_iff .right).mpr ⟨?_, ?_⟩, Sight.move_still hto, fun j => ?_⟩
  · unfold Sight.Ready
    rw [(hsil' .right).1, (hsil' .right).2, hzero]
    exact Sight.move_end.mpr hconn
  · rw [Sight.move_ready_other]
    unfold Sight.Ready
    rw [(hsil _).1, (hsil _).2, hzero]
    exact hl
  · exact (hsil' j).2.trans (hsil' j.other).1.symm

theorem deliver_dataOut {j : Side} {data : List Byte} (h : v.Shows φ (.dataOut j data)) :
    (v.move i (k'.conn (φ.key v.nic i)) rest out.frames [] out.printed).Shows φ
      (.dataAcked j.other) := by
  obtain ⟨hsend, ⟨c, hc, hst⟩, hev, hsaid, hne, hlen, hf⟩ := h
  obtain ⟨rfl, rfl, hto, s, hs⟩ := hf.side ht
  have hfin : s.tcpHdr.has rteTcpFinFlag = false := by
    unfold TcpHdr.has
    rw [hs.flags]
    decide
  obtain ⟨hconn, hpost, hprint⟩ := established_prints (hT.rx hw hs hc) hst (hT.holds hc) hne hlen
    hs.size hs.data hfin
  have hseq : seqno (v.heard i) + BitVec.ofNat 32 data.length = seqno (v.heard i ++ data) := by
    unfold seqno
    rw [List.length_append, BitVec.ofNat_add]
    ring
  rw [hs.ackn, hs.seq, hseq, hev] at hconn hpost
  rw [hprint]
  refine ⟨⟨seqno (v.heard i), ?_⟩, ?_, ?_, ?_⟩
  · rw [Sight.move_end_other, Sight.move_heard_other]
    exact hsend
  · rw [Side.other_other]
    unfold Sight.Ready
    rw [Sight.move_end, Sight.move_said, Sight.move_heard, List.append_nil]
    exact hconn
  · apply Sight.Even.all i
    · rw [Sight.move_heard, Sight.move_said_other, hsaid]
    · rw [Sight.move_heard_other, Sight.move_said, List.append_nil, hev]
  · rw [Side.other_other, Sight.move_said, Sight.move_heard, List.append_nil]
    exact Sight.flight_of_posts hpost hto

theorem deliver_dataAcked {j : Side} (h : v.Shows φ (.dataAcked j)) :
    (v.move i (k'.conn (φ.key v.nic i)) rest out.frames [] out.printed).Shows φ .settled := by
  obtain ⟨⟨nxt, c, hc, hst⟩, hother, hev, hf⟩ := h
  obtain ⟨rfl, rfl, hto, s, hs⟩ := hf.side ht
  have hfin : s.tcpHdr.has rteTcpFinFlag = false := by
    unfold TcpHdr.has
    rw [hs.flags]
    decide
  obtain ⟨hconn, rfl⟩ := established_acked (hT.rx hw hs hc) hst hs.size
    (by rw [hs.seq, hev]) hfin
  rw [hs.ackn, hev, Side.other_other] at hconn
  refine ⟨(Side.forall_iff i).mpr ⟨?_, Sight.move_ready_other.mpr hother⟩, Sight.move_still hto,
    Sight.move_even hev⟩
  unfold Sight.Ready
  rw [Sight.move_end, Sight.move_said, Sight.move_heard, List.append_nil, List.append_nil]
  exact hconn

theorem deliver_finOut {j : Side} (h : v.Shows φ (.finOut j)) :
    (v.move i (k'.conn (φ.key v.nic i)) rest out.frames [] out.printed).Shows φ
      (.finAnswered j.other) := by
  obtain ⟨hfw, ⟨c, hc, hst⟩, hev, hf⟩ := h
  obtain ⟨rfl, rfl, hto, s, hs⟩ := hf.side ht
  have hfin : s.tcpHdr.has rteTcpFinFlag = true := by
    unfold TcpHdr.has
    rw [hs.flags]
    decide
  obtain ⟨hconn, hpost, hprint⟩ := established_closes (hT.rx hw hs hc) hst (hT.holds hc) hs.size
    (by rw [hs.seq, hev]) hfin
  rw [hprint]
  refine ⟨?_, ?_, Sight.move_even hev, ?_⟩
  · rw [Sight.move_end_other, Sight.move_said_other, Sight.move_heard_other]
    exact hfw
  · rw [Side.other_other, Sight.move_end, Sight.move_said, Sight.move_heard, List.append_nil,
      List.append_nil]
    exact hconn
  · rw [Side.other_other, Sight.move_said, Sight.move_heard, List.append_nil, List.append_nil]
    exact Sight.flight_of_posts hpost hto

theorem deliver_finAnswered {j : Side} (h : v.Shows φ (.finAnswered j)) :
    (v.move i (k'.conn (φ.key v.nic i)) rest out.frames [] out.printed).Shows φ
        (.lastOut j.other) ∨
      (v.move i (k'.conn (φ.key v.nic i)) rest out.frames [] out.printed).Shows φ
        (.refused j) := by
  obtain ⟨⟨c, hc, hst⟩, hla, hev, hf⟩ := h
  obtain ⟨rfl, rfl, hto, s, hs⟩ := hf.side ht
  obtain ⟨hcase, hprint⟩ := finWait1_takes (hT.rx hw hs hc) hst (hT.holds hc) hs.size
    (by rw [hs.seq, hev])
  have hreach : ackCheck c s.ackn = true ↔ Reaches i (v.said i) := by
    have hnxt := ackCheck_nxt c
    rw [hst.una, hst.nxt] at hnxt
    rw [hs.ackn, hev, Side.other_other]
    exact hnxt
  rw [hprint]
  rcases hcase with ⟨ha, ho, hpost⟩ | ⟨ha, ho, hframes⟩
  · left
    refine ⟨?_, ?_, Sight.move_even hev, ⟨_, _, Sight.flight_of_posts hpost hto⟩, ?_⟩
    · rw [Side.other_other, Sight.move_conn]
      exact ho
    · exact ⟨_, _, _, Sight.move_end_other.mpr hla⟩
    · rw [Side.other_other, Sight.move_said, List.append_nil]
      exact hreach.mp ha
  · right
    rw [hframes]
    refine ⟨⟨_, _, _, Sight.move_end.mpr ⟨c, ho, hst⟩⟩, ⟨_, _, _, Sight.move_end_other.mpr hla⟩,
      Sight.move_still hto, Sight.move_even hev, ?_⟩
    rw [Sight.move_said, List.append_nil, ← hreach, ha]
    decide

theorem deliver_lastOut {j : Side} (h : v.Shows φ (.lastOut j)) :
    (v.move i (k'.conn (φ.key v.nic i)) rest out.frames [] out.printed).Shows φ
      (.done j.other) := by
  obtain ⟨hgone, ⟨una, nxt, rcv, c, hc, hst⟩, hev, ⟨seq, ackn, hf⟩, hreach⟩ := h
  obtain ⟨rfl, rfl, hto, s, hs⟩ := hf.side ht
  obtain ⟨ho, rfl⟩ := lastAck_leaves (hT.rx hw hs hc) hst.state
  refine ⟨(Side.forall_iff i).mpr ⟨?_, ?_⟩, Sight.move_still hto, Sight.move_even hev, ?_⟩
  · rw [Sight.move_conn]
    exact ho
  · rw [Sight.move_conn_other]
    exact hgone
  · rw [Sight.move_said_other]
    exact hreach

/-- A delivery takes the conversation one segment further. -/
theorem deliver_phase {st : Phase} (h : v.Shows φ st) : ∃ st',
    (v.move i (k'.conn (φ.key v.nic i)) rest out.frames [] out.printed).Shows φ st' ∧
      st'.left < st.left ∧ (st' ≠ .idle) ∧ st'.closer = st.closer := by
  have busy : ¬v.Still := by
    intro hstill
    cases ht.symm.trans (hstill i)
  cases st with
  | idle => exact absurd h.2.1 busy
  | settled => exact absurd h.2.1 busy
  | done j => exact absurd h.2.1 busy
  | refused j => exact absurd h.2.2.1 busy
  | synOut => exact ⟨_, deliver_synOut ht hT hw h, by decide, by simp, rfl⟩
  | synAcked => exact ⟨_, deliver_synAcked ht hT hw h, by decide, by simp, rfl⟩
  | ackOut => exact ⟨_, deliver_ackOut ht hT hw h, by decide, by simp, rfl⟩
  | dataOut j data => exact ⟨_, deliver_dataOut ht hT hw h, Nat.lt_succ_self 1, by simp, rfl⟩
  | dataAcked j => exact ⟨_, deliver_dataAcked ht hT hw h, Nat.lt_succ_self 0, by simp, rfl⟩
  | finOut j => exact ⟨_, deliver_finOut ht hT hw h, Nat.lt_succ_self 2, by simp, rfl⟩
  | finAnswered j =>
    rcases deliver_finAnswered ht hT hw h with h | h
    · exact ⟨_, h, Nat.lt_succ_self 1, by simp, congrArg some j.other_other⟩
    · exact ⟨_, h, Nat.zero_lt_two, by simp, rfl⟩
  | lastOut j => exact ⟨_, deliver_lastOut ht hT hw h, Nat.lt_succ_self 0, by simp, rfl⟩

end

/-! ### Commands -/

def closedBy (a : Side × Op) : Option Side :=
  match a.2 with
  | .close _ => some a.1
  | _ => none

section
variable {op : Op} (hT : Taker φ v i env k) (hw : step K k ⟨op, env⟩ = some (k', out))
  (hk : keyOf k.tcp.nic ⟨op, env⟩ = φ.key v.nic i) (hstill : v.Still)
include hT hw hk hstill

theorem act_connect {dip : BitVec 32} {dport sport : BitVec 16} (hop : op = .connect dip dport sport)
    (hi : i = .left) (h : v.Shows φ .idle) :
    (v.move i (k'.conn (φ.key v.nic i)) [] out.frames [] []).Shows φ .synOut := by
  obtain ⟨hnone, -, hsil⟩ := h
  subst hop hi
  obtain ⟨hconn, f, s, hf, hs, hwin⟩ := connect_posts hw hk hT.rep (hT.conn.trans (hnone _)) hT.room
    hT.buffer hT.joined hT.here
  refine ⟨Sight.move_end.mpr hconn, ?_, ⟨f.packet, s, ?_, ?_, hs, hwin⟩, Sight.move_silent hsil⟩
  · exact (Sight.move_conn_other (i := .left)).trans (hnone _)
  · refine (Sight.move_toward_other (i := .left)).trans ?_
    rw [hf, hstill]
    rfl
  · exact Sight.move_toward

theorem act_send {x : Quad} {data : List Byte} (hop : op = .send x data) (hne : data ≠ [])
    (hlen : data.length ≤ 65495) (h : v.Shows φ .settled) :
    (v.move i (k'.conn (φ.key v.nic i)) [] out.frames data []).Shows φ
      (.dataOut i.other data) := by
  obtain ⟨hready, -, hev⟩ := h
  subst hop
  obtain ⟨c, hc, hst⟩ := hready i
  have hslot := slot_at hT.rep hw
  rw [hk, hT.conn, hc] at hslot
  obtain ⟨hconn, hpost⟩ := sends_data hslot hst (hT.holds hc) hlen
  have hto := hev i.other
  rw [Side.other_other] at hto
  refine ⟨?_, Sight.move_ready_other.mpr (hready _), ?_, ?_, hne, hlen, ?_⟩
  · rw [Side.other_other, Sight.move_end, Sight.move_heard_other, Sight.move_heard, List.append_nil,
      hto]
    exact hconn
  · rw [Side.other_other, Sight.move_heard, List.append_nil, Sight.move_said_other]
    exact hev i
  · rw [Side.other_other, Sight.move_said, Sight.move_heard_other, hto]
  · rw [Side.other_other, Sight.move_heard_other, Sight.move_heard, List.append_nil, hto]
    exact Sight.flight_of_posts hpost (hstill _)

theorem act_close {x : Quad} (hop : op = .close x) (h : v.Shows φ .settled) :
    (v.move i (k'.conn (φ.key v.nic i)) [] out.frames [] []).Shows φ (.finOut i.other) := by
  obtain ⟨hready, -, hev⟩ := h
  subst hop
  obtain ⟨c, hc, hst⟩ := hready i
  have hslot := slot_at hT.rep hw
  rw [hk, hT.conn, hc] at hslot
  obtain ⟨hconn, hpost⟩ := sends_fin hslot hst (hT.holds hc)
  refine ⟨?_, Sight.move_ready_other.mpr (hready _), Sight.move_even hev, ?_⟩
  · rw [Side.other_other, Sight.move_end, Sight.move_said, Sight.move_heard, List.append_nil,
      List.append_nil]
    exact hconn
  · rw [Side.other_other, Sight.move_said, Sight.move_heard, List.append_nil, List.append_nil]
    exact Sight.flight_of_posts hpost (hstill _)

/-- What a user may do: the left one opens the flow once, then each sends what a
connection has room for, and one of them closes. -/
def Proper (cmds : List (Side × Op)) (i : Side) : Op → Prop
  | .rx _ => False
  | .connect _ _ _ => i = .left ∧ cmds = []
  | .send _ data => cmds ≠ [] ∧ cmds.findSome? closedBy = none ∧ data ≠ [] ∧
      data.length ≤ sizeofPayload
  | .close _ => cmds ≠ [] ∧ cmds.findSome? closedBy = none

theorem act_phase {st : Phase} {cmds : List (Side × Op)} (hidle : st = .idle ↔ cmds = [])
    (hclose : st.closer = cmds.findSome? closedBy) (hop : Proper cmds i op) (h : v.Shows φ st) :
    ∃ st', (v.move i (k'.conn (φ.key v.nic i)) [] out.frames op.token []).Shows φ st' ∧
      st'.left ≤ 3 ∧ st' ≠ .idle ∧ st.closer = none ∧ st'.closer = closedBy (i, op) := by
  have settled : cmds ≠ [] → cmds.findSome? closedBy = none → st = .settled := by
    intro hne hno
    rw [← hclose] at hno
    cases st with
    | idle => exact absurd (hidle.mp rfl) hne
    | settled => rfl
    | synOut =>
      obtain ⟨-, -, ⟨p, s, hp, -⟩, -⟩ := h
      cases hp.symm.trans (hstill _)
    | synAcked =>
      obtain ⟨-, -, ⟨p, s, hp, -⟩, -⟩ := h
      cases hp.symm.trans (hstill _)
    | ackOut =>
      obtain ⟨-, -, ⟨p, s, hp, -⟩, -⟩ := h
      cases hp.symm.trans (hstill _)
    | dataOut j data =>
      obtain ⟨-, -, -, -, -, -, ⟨p, s, hp, -⟩⟩ := h
      cases hp.symm.trans (hstill _)
    | dataAcked j =>
      obtain ⟨-, -, -, ⟨p, s, hp, -⟩⟩ := h
      cases hp.symm.trans (hstill _)
    | finOut j => cases hno
    | finAnswered j => cases hno
    | lastOut j => cases hno
    | done j => cases hno
    | refused j => cases hno
  cases op with
  | rx p => exact absurd hop id
  | connect dip dport sport =>
    obtain ⟨hi, hcmds⟩ := hop
    obtain rfl := hidle.mpr hcmds
    exact ⟨_, act_connect hT hw hk hstill rfl hi h, le_rfl, by simp, rfl, rfl⟩
  | send x data =>
    obtain ⟨hcmds, hno, hne, hlen⟩ := hop
    obtain rfl := settled hcmds hno
    have hlen : data.length ≤ 65495 := hlen.trans (by decide)
    exact ⟨_, act_send hT hw hk hstill rfl hne hlen h, Nat.le_succ 2, by simp, rfl, rfl⟩
  | close x =>
    obtain ⟨hcmds, hno⟩ := hop
    obtain rfl := settled hcmds hno
    refine ⟨_, act_close hT hw hk hstill rfl h, le_rfl, by simp, rfl, ?_⟩
    exact congrArg some i.other_other

end

end

end TcpDpdk

import TcpDpdk.Dispatch
import TcpDpdk.Payload

/-!
# What a core does not survive

Two things end the program inside a step for certain: an object that was not allocated is
written to, and a negative size is handed to `rte_memcpy` as a `size_t`. `step_none_iff`
says where these are. Two more copies go behind what they copy into, and C says nothing of
what happens then: data longer than the array of a connection, and a payload longer than a
buffer. `boundedMachine` stops there too: its runs are the runs of a core in which everything
the program writes has a place, and `survives_iff` says which inputs it gets through.
-/

namespace TcpDpdk

/-! ## Handlers -/

section
variable {K : RteCksum} {env : Env} {t : Tcp} {c : Connection} {s : Seg}

theorem sendP_none_iff {data : Mem} {n : BitVec 64} :
    sendP env t c data n = none ↔ env.mbuf = true ∧ n.msb = true := by
  unfold sendP
  by_cases hm : env.mbuf = true
  · simp [hm]
  · simp [hm]

theorem tcpTxPackets_none_iff {data : Mem} {n : BitVec 64} :
    tcpTxPackets K env t c data n = none ↔ env.mbuf = true ∧ n.msb = true := by
  unfold tcpTxPackets
  rw [Option.map_eq_none_iff]
  exact sendP_none_iff

theorem tcpTxPackets_none_size {data : Mem} {size : BitVec 32} :
    tcpTxPackets K env t c data (sizeT size) = none ↔ env.mbuf = true ∧ size.toInt < 0 := by
  rw [tcpTxPackets_none_iff, sizeT_msb, decide_eq_true_iff]

theorem tcpTxPackets_zero_ne_none {data : Mem} : tcpTxPackets K env t c data 0#64 ≠ none := by
  rw [Ne, tcpTxPackets_none_iff]
  simp

/-- A handler is given a negative size and a buffer, and passes the size on. -/
def Connection.Overruns (c : Connection) (env : Env) (s : Seg) : Prop :=
  c.echoes s = true ∧ env.mbuf = true ∧ s.size.toInt < 0

theorem handleTcpSynRecv_none_iff : handleTcpSynRecv K env t c s = none ↔
    (segmentCheck c s.size s.seq = false ∧ s.tcpHdr.has rteTcpSynFlag = true) ∧
      env.mbuf = true ∧ s.size.toInt < 0 := by
  unfold handleTcpSynRecv
  by_cases hc : segmentCheck c s.size s.seq = true
  · by_cases ha : ackCheck c s.ackn = true <;> simp [hc, ha]
  · by_cases hf : s.tcpHdr.has rteTcpSynFlag = true
    · simp [hc, hf, tcpTxPackets_none_size]
    · simp [hc, hf]

theorem handleTcpEstablish_none_iff : handleTcpEstablish K env t c s = none ↔
    (segmentCheck c s.size s.seq = true ∧ s.tcpHdr.has rteTcpFinFlag = true) ∧
      env.mbuf = true ∧ s.size.toInt < 0 := by
  unfold handleTcpEstablish
  by_cases hc : segmentCheck c s.size s.seq = true
  · by_cases hf : s.tcpHdr.has rteTcpFinFlag = true
    · simp [hc, hf, tcpTxPackets_none_size]
    · rw [if_pos hc, if_neg hf]
      by_cases h0 : s.size = 0
      · rw [if_pos h0]
        simp [hf]
      · rw [if_neg h0]
        simp [hf, tcpTxPackets_zero_ne_none]
  · simp [hc]

theorem handleTcpSynSent_none_iff : handleTcpSynSent K env t c s = none ↔
    env.mbuf = true ∧ s.size.toInt < 0 := by
  unfold handleTcpSynSent
  simp only [segmentCheck_self rfl, ite_true, Option.map_eq_none_iff, tcpTxPackets_none_size]

theorem handleTcpFinWait1_ne_none : handleTcpFinWait1 K env t c s ≠ none := by
  unfold handleTcpFinWait1
  by_cases hc : segmentCheck c s.size s.seq = true
  · by_cases ha : ackCheck c s.ackn = true <;> simp [hc, ha, tcpTxPackets_zero_ne_none]
  · simp [hc]

theorem handleTcpFinWait2_none_iff : handleTcpFinWait2 K env t c s = none ↔
    segmentCheck c s.size s.seq = true ∧ env.mbuf = true ∧ s.size.toInt < 0 := by
  unfold handleTcpFinWait2
  by_cases hc : segmentCheck c s.size s.seq = true
  · simp [hc, tcpTxPackets_none_size]
  · simp [hc]

theorem rxSwitch_none_iff : rxSwitch K env t c s = none ↔ c.Overruns env s := by
  unfold rxSwitch Connection.Overruns Connection.echoes
  cases hst : c.tcpState with
  | established => simp [handleTcpEstablish_none_iff]
  | synSent => simp [handleTcpSynSent_none_iff]
  | synRecv => simp [handleTcpSynRecv_none_iff]
  | finWait1 => simp [handleTcpFinWait1_ne_none]
  | finWait2 => simp [handleTcpFinWait2_none_iff]
  | lastAck | timeWait | close | closeWait | listen | closing | maxStates => simp

theorem handleTcpListen_none_iff : handleTcpListen K env t s = none ↔
    s.tcpHdr.tcpFlags = rteTcpSynFlag ∧
      (env.object = none ∨ env.mbuf = true ∧ s.size.toInt < 0) := by
  unfold handleTcpListen
  by_cases hf : s.tcpHdr.tcpFlags = rteTcpSynFlag
  · cases hg : env.object with
    | none => simp [hf]
    | some g => simp [hf, tcpTxPackets_none_size]
  · simp [hf]

end

/-! ## Steps -/

/-- `Crashes k i`: the core does not survive the input, for want of an object or for a
negative size. -/
def Core.Crashes (k : Core) (i : Input) : Prop :=
  match i.op, k.conn (keyOf k.tcp.nic i) with
  | .rx p, none => ∃ s, rxSegment k.tcp.nic i.env.pad p = some s ∧
      s.tcpHdr.tcpFlags = rteTcpSynFlag ∧
      (i.env.object = none ∨ i.env.mbuf = true ∧ s.size.toInt < 0)
  | .rx p, some c => ∃ s, rxSegment k.tcp.nic i.env.pad p = some s ∧ c.Overruns i.env s
  | .connect _ _ _, none => i.env.object = none
  | .send _ data, some _ => i.env.mbuf = true ∧ (BitVec.ofNat 32 data.length).toInt < 0
  | _, _ => False

section
variable {K : RteCksum} {k : Core}

theorem lookup_conn {q : Quad} {c : Connection} (hc : k.conn q = some c) :
    ∃ p, k.tcp.rteHash.lookup q = some p ∧ k.heap.read p = some c :=
  Option.bind_eq_some_iff.mp hc

theorem cliFlow_none_iff (h : k.Rep) {q : Quad}
    {act : Connection → Option (Connection × List Frame)} :
    cliFlow k q act = none ↔ ∃ c, k.conn q = some c ∧ act c = none := by
  unfold cliFlow
  cases hc : k.conn q with
  | none => simp [lookup_of_conn_none h hc]
  | some c =>
    obtain ⟨p, hl, hr⟩ := lookup_conn hc
    simp [hl, hr]

theorem rxDispatch_none_iff (h : k.Rep) {env : Env} {s : Seg} : rxDispatch K env k s = none ↔
    match k.conn s.q with
    | none => s.tcpHdr.tcpFlags = rteTcpSynFlag ∧
        (env.object = none ∨ env.mbuf = true ∧ s.size.toInt < 0)
    | some c => c.Overruns env s := by
  unfold rxDispatch
  cases hc : k.conn s.q with
  | none =>
    simp only [lookup_of_conn_none h hc, Option.map_eq_none_iff]
    exact handleTcpListen_none_iff
  | some c =>
    obtain ⟨p, hl, hr⟩ := lookup_conn hc
    simp only [hl, hr, Option.map_eq_none_iff]
    exact rxSwitch_none_iff

theorem step_none_iff (h : k.Rep) (i : Input) : step K k i = none ↔ k.Crashes i := by
  obtain ⟨op, env⟩ := i
  unfold Core.Crashes
  cases op with
  | rx p =>
    simp only [step, tcpRxPacket]
    cases hs : rxSegment k.tcp.nic env.pad p with
    | none => cases k.conn (keyOf k.tcp.nic ⟨.rx p, env⟩) <;> simp [hs]
    | some s =>
      have hk : keyOf k.tcp.nic ⟨.rx p, env⟩ = s.q := by
        obtain ⟨-, rfl⟩ := rxSegment_some hs
        rfl
      rw [hk]
      simp only [rxDispatch_none_iff h]
      cases k.conn s.q <;> simp [hs]
  | connect dip dport sport =>
    simp only [step, activeConnect, keyOf]
    cases hc : k.conn (connectQuad k.tcp.nic env.pad dip dport sport) with
    | none =>
      simp only [lookup_of_conn_none h hc]
      cases env.object with
      | none => simp
      | some g => simp [tcpTxPackets_zero_ne_none]
    | some c =>
      obtain ⟨p, hl, -⟩ := lookup_conn hc
      simp [hl]
  | close q =>
    simp only [step, cliFlow_none_iff h]
    simp [activeClose, tcpTxPackets_zero_ne_none]
  | send q data =>
    simp only [step, cliFlow_none_iff h, activeSendData, tcpTxPackets_none_size, keyOf]
    cases k.conn { q with pad := env.pad } <;> simp

/-! ### Enough for the certain ends -/

def Op.token : Op → List Byte
  | .send _ data => data
  | _ => []

/-- What a core needs to go on: an object to make a connection of, no segment shorter
than its own headers, no token as long as half the range of an `unsigned`. -/
structure Sound (nic : Nic) (i : Input) : Prop where
  object : i.env.object ≠ none
  segment : ∀ s ∈ opSegment nic i.env.pad i.op, 0 ≤ s.size.toInt
  token : i.op.token.length < 2 ^ 31

instance (nic : Nic) (i : Input) : Decidable (Sound nic i) :=
  decidable_of_iff (i.env.object.isSome = true ∧
      (∀ s ∈ opSegment nic i.env.pad i.op, 0 ≤ s.size.toInt) ∧ i.op.token.length < 2 ^ 31)
    ⟨fun h => ⟨Option.isSome_iff_ne_none.mp h.1, h.2.1, h.2.2⟩,
      fun h => ⟨Option.isSome_iff_ne_none.mpr h.object, h.segment, h.token⟩⟩

theorem not_crashes {i : Input} (h : Sound k.tcp.nic i) : ¬k.Crashes i := by
  unfold Core.Crashes
  split
  · rintro ⟨s, hs, -, hno | ⟨-, hneg⟩⟩
    · exact h.object hno
    · rename_i hop _
      exact absurd (h.segment s (by rw [hop]; exact hs)) (Int.not_le.mpr hneg)
  · rintro ⟨s, hs, -, -, hneg⟩
    rename_i hop _
    exact absurd (h.segment s (by rw [hop]; exact hs)) (Int.not_le.mpr hneg)
  · exact h.object
  · rintro ⟨-, hneg⟩
    rename_i x data _ hop _
    have := h.token
    rw [hop] at this
    change data.length < _ at this
    rw [BitVec.toInt_eq_toNat_cond, BitVec.toNat_ofNat] at hneg
    omega
  · exact id

theorem path_rep {tr : List (machine K).Event} {k' : Core} (hp : Machine.Path k tr k')
    (h : k.Rep) : k'.Rep ∧ k'.tcp.nic = k.tcp.nic := by
  induction tr generalizing k with
  | nil =>
    cases hp
    exact ⟨h, rfl⟩
  | cons e tr ih =>
    obtain ⟨rfl, hp⟩ := hp
    obtain ⟨o, htouch, -⟩ := step_slot h e.fired
    obtain ⟨hrep, hnic⟩ := ih hp htouch.rep
    exact ⟨hrep, hnic.trans htouch.nic⟩

end

/-! ## Copies -/

/-- The data that a step hands to `send_p`, if it gets there. -/
def opPayload (nic : Nic) (pad : BitVec 32) (op : Op) (o : Option Connection) : List Byte :=
  match op, o with
  | .rx p, none => (rxSegment nic pad p).elim [] fun s =>
    if s.tcpHdr.tcpFlags = rteTcpSynFlag then s.data.bytes (sizeT s.size).toNat else []
  | .rx p, some c => (rxSegment nic pad p).elim [] fun s =>
    if c.echoes s then s.data.bytes (sizeT s.size).toNat else []
  | .send _ data, some _ => (tokenMem data).bytes (sizeT (BitVec.ofNat 32 data.length)).toNat
  | .send _ _, none => []
  | .connect _ _ _, none => []
  | .connect _ _ _, some _ => []
  | .close _, none => []
  | .close _, some _ => []

/-- The entries of a connection's `payload` that a step writes. -/
def opWrites (op : Op) (o : Option Connection) : List Nat :=
  match op, o with
  | .send _ data, some _ => payloadWrites (BitVec.ofNat 32 data.length)
  | .send _ _, none => []
  | .rx _, none => []
  | .rx _, some _ => []
  | .connect _ _ _, none => []
  | .connect _ _ _, some _ => []
  | .close _, none => []
  | .close _, some _ => []

/-- All that a step copies stays in the array of the connection and, behind the headers,
in the `room` bytes of the buffer. -/
def inBounds (room : Nat) (k : Core) (i : Input) (out : Out) : Bool :=
  (opWrites i.op (k.conn (keyOf k.tcp.nic i))).all (· < sizeofPayload) &&
    out.frames.all fun f => f.payload.length ≤ room

/-- The core whose buffers hold `room` bytes of payload, up to the first copy that does not fit. -/
def boundedMachine (K : RteCksum) (room : Nat) : Machine Core Input Out :=
  (machine K).guard (inBounds room)

section
variable {K : RteCksum} {env : Env} {t : Tcp}

theorem slot_payload {P : List Byte → Prop} (h0 : P []) {op : Op} {o o' : Option Connection}
    {out : Out} (h : Slot K env t op o o' out) :
    (∀ f ∈ out.frames, P f.payload) ↔ (env.mbuf = true → P (opPayload t.nic env.pad op o)) := by
  have none : (∀ f ∈ ({} : Out).frames, P f.payload) ↔ (env.mbuf = true → P []) :=
    iff_of_true (fun _ hf => nomatch hf) fun _ => h0
  cases h with
  | @dropped p o hs =>
    have hp : opPayload t.nic env.pad (.rx p) o = [] := by cases o <;> simp only [opPayload, hs] <;> rfl
    rw [hp]
    exact none
  | unknown hs hf =>
    simp only [opPayload, hs, Option.elim_some, if_neg hf]
    exact none
  | opened hs hf _ hp _ =>
    simp only [opPayload, hs, Option.elim_some, if_pos hf]
    exact sendP_payload hp P
  | @handled p s c _ _ hs hrx =>
    rw [rx_payload h0 hrx]
    simp only [opPayload, hs, Option.elim_some]
    cases c.echoes s with
    | true => simp
    | false => simp [h0]
  | connected _ hp _ => exact iff_of_true (sendP_empty h0 hp) fun _ => h0
  | present => exact none
  | noClose => exact none
  | noSend => exact none
  | finSent hp => exact iff_of_true (sendP_empty h0 hp) fun _ => h0
  | dataSent hp => exact sendP_payload hp P

end

def SizeFits (room : Nat) (size : BitVec 32) : Prop := 0 ≤ size.toInt ∧ size.toInt ≤ room

/-- `k.Fails room i`: there is no object, or a copy of the step does not fit. -/
def Core.Fails (room : Nat) (k : Core) (i : Input) : Prop :=
  match i.op, k.conn (keyOf k.tcp.nic i) with
  | .rx p, none => ∃ s, rxSegment k.tcp.nic i.env.pad p = some s ∧
      s.tcpHdr.tcpFlags = rteTcpSynFlag ∧
      (i.env.object = none ∨ i.env.mbuf = true ∧ ¬SizeFits room s.size)
  | .rx p, some c => ∃ s, rxSegment k.tcp.nic i.env.pad p = some s ∧ c.echoes s = true ∧
      i.env.mbuf = true ∧ ¬SizeFits room s.size
  | .connect _ _ _, none => i.env.object = none
  | .connect _ _ _, some _ => False
  | .send _ data, some _ => sizeofPayload < (BitVec.ofNat 32 data.length).toInt ∨
      i.env.mbuf = true ∧ ¬SizeFits room (BitVec.ofNat 32 data.length)
  | .send _ _, none => False
  | .close _, none => False
  | .close _, some _ => False

/-! ## Runs -/

section
variable {K : RteCksum} {k : Core} {room : Nat}

theorem bytes_fit {data : Mem} {size : BitVec 32} (hpos : 0 ≤ size.toInt) :
    (data.bytes (sizeT size).toNat).length ≤ room ↔ SizeFits room size := by
  have hn := sizeT_toNat hpos
  rw [Mem.length_bytes]
  unfold SizeFits
  omega

theorem writes_fit {size : BitVec 32} :
    (∀ j ∈ payloadWrites size, j < sizeofPayload) ↔ ¬sizeofPayload < size.toInt := by
  unfold payloadWrites
  simp only [List.mem_range]
  constructor
  · intro h hlt
    exact Nat.lt_irrefl _ (h sizeofPayload (by omega))
  · intro h j hj
    omega

/-- A step that is not one of the certain ends fails exactly if it copies too much. -/
theorem fails_iff {i : Input} (h : ¬k.Crashes i) : k.Fails room i ↔
    ¬((∀ j ∈ opWrites i.op (k.conn (keyOf k.tcp.nic i)), j < sizeofPayload) ∧
      (i.env.mbuf = true →
        (opPayload k.tcp.nic i.env.pad i.op (k.conn (keyOf k.tcp.nic i))).length ≤ room)) := by
  unfold Core.Crashes at h
  unfold Core.Fails
  generalize k.conn (keyOf k.tcp.nic i) = o at h ⊢
  generalize i.op = op at h ⊢
  have nothing : ¬((∀ j ∈ ([] : List Nat), j < sizeofPayload) ∧
      (i.env.mbuf = true → ([] : List Byte).length ≤ room)) ↔ False :=
    iff_of_false (fun h => h ⟨fun _ h => (nomatch h), fun _ => Nat.zero_le _⟩) id
  cases op with
  | rx p =>
    cases o with
    | none =>
      simp only [opWrites, opPayload]
      cases hs : rxSegment k.tcp.nic i.env.pad p with
      | none => simp
      | some s =>
        simp only [hs, Option.some.injEq, exists_eq_left', Option.elim_some] at h ⊢
        by_cases hf : s.tcpHdr.tcpFlags = rteTcpSynFlag
        · have hobj : i.env.object ≠ none := fun hno => h ⟨hf, Or.inl hno⟩
          have hpos : i.env.mbuf = true → 0 ≤ s.size.toInt := fun hm =>
            Int.not_lt.mp fun hneg => h ⟨hf, Or.inr ⟨hm, hneg⟩⟩
          rw [if_pos hf]
          simp only [hf, hobj, true_and, false_or, List.not_mem_nil, false_imp_iff, implies_true,
            Classical.not_imp]
          exact and_congr_right fun hm => not_congr (bytes_fit (hpos hm)).symm
        · rw [if_neg hf, nothing]
          simp [hf]
    | some c =>
      simp only [opWrites, opPayload]
      cases hs : rxSegment k.tcp.nic i.env.pad p with
      | none => simp
      | some s =>
        simp only [hs, Option.some.injEq, exists_eq_left', Option.elim_some] at h ⊢
        by_cases he : c.echoes s = true
        · have hpos : i.env.mbuf = true → 0 ≤ s.size.toInt := fun hm =>
            Int.not_lt.mp fun hneg => h ⟨he, hm, hneg⟩
          rw [if_pos he]
          simp only [he, true_and, List.not_mem_nil, false_imp_iff, implies_true,
            Classical.not_imp]
          exact and_congr_right fun hm => not_congr (bytes_fit (hpos hm)).symm
        · rw [if_neg he, nothing]
          simp [he]
  | connect dip dport sport =>
    cases o with
    | none => exact iff_of_false h nothing.mp
    | some c => exact nothing.symm
  | close q =>
    cases o with
    | none => exact nothing.symm
    | some c => exact nothing.symm
  | send q data =>
    cases o with
    | none => exact nothing.symm
    | some c =>
      simp only [opWrites, opPayload, writes_fit]
      have hpos : i.env.mbuf = true → 0 ≤ (BitVec.ofNat 32 data.length).toInt := fun hm =>
        Int.not_lt.mp fun hneg => h ⟨hm, hneg⟩
      rw [not_and_or, not_not, Classical.not_imp]
      exact or_congr_right (and_congr_right fun hm => not_congr (bytes_fit (hpos hm)).symm)

theorem crashes_fails {i : Input} (h : k.Crashes i) : k.Fails room i := by
  unfold Core.Crashes at h
  unfold Core.Fails
  generalize k.conn (keyOf k.tcp.nic i) = o at h ⊢
  generalize i.op = op at h ⊢
  have neg : ∀ {size : BitVec 32}, size.toInt < 0 → ¬SizeFits room size :=
    fun h hfits => absurd hfits.1 (Int.not_le.mpr h)
  cases op with
  | rx p =>
    cases o with
    | none =>
      obtain ⟨s, hs, hf, hno | ⟨hm, hneg⟩⟩ := h
      · exact ⟨s, hs, hf, Or.inl hno⟩
      · exact ⟨s, hs, hf, Or.inr ⟨hm, neg hneg⟩⟩
    | some c =>
      obtain ⟨s, hs, he, hm, hneg⟩ := h
      exact ⟨s, hs, he, hm, neg hneg⟩
  | connect _ _ _ =>
    cases o with
    | none => exact h
    | some _ => exact h
  | close _ =>
    cases o with
    | none => exact h
    | some _ => exact h
  | send _ data =>
    cases o with
    | none => exact h
    | some c => exact Or.inr ⟨h.1, neg h.2⟩

theorem boundedStep_none_iff (h : k.Rep) (i : Input) :
    (boundedMachine K room).step k i = none ↔ k.Fails room i := by
  unfold boundedMachine
  rw [Machine.guard_none]
  cases hw : step K k i with
  | none =>
    refine iff_of_true (fun t out he => ?_) (crashes_fails ((step_none_iff h i).mp hw))
    cases hw.symm.trans he
  | some r =>
    obtain ⟨k', out⟩ := r
    have hno : ¬k.Crashes i := fun hcr => by cases hw.symm.trans ((step_none_iff h i).mpr hcr)
    obtain ⟨o, -, hslot⟩ := step_slot h hw
    have hall : (∀ f ∈ out.frames, f.payload.length ≤ room) ↔ (i.env.mbuf = true →
        (opPayload k.tcp.nic i.env.pad i.op (k.conn (keyOf k.tcp.nic i))).length ≤ room) :=
      slot_payload (P := fun l => l.length ≤ room) (Nat.zero_le room) hslot
    rw [fails_iff hno, ← hall]
    have hok : inBounds room k i out = true ↔
        (∀ j ∈ opWrites i.op (k.conn (keyOf k.tcp.nic i)), j < sizeofPayload) ∧
          ∀ f ∈ out.frames, f.payload.length ≤ room := by
      simp [inBounds]
    rw [← hok, Bool.not_eq_true]
    constructor
    · intro hbad
      exact hbad k' out hw
    · intro hbad t out' he
      cases hw.symm.trans he
      exact hbad

/-- What a core needs to go on for certain: an object to make a connection of, and sizes
that fit what is copied into. -/
structure Within (room : Nat) (nic : Nic) (i : Input) : Prop where
  object : i.env.object ≠ none
  segment : ∀ s ∈ opSegment nic i.env.pad i.op, SizeFits room s.size
  token : i.op.token.length ≤ sizeofPayload ∧ i.op.token.length ≤ room

instance (room : Nat) (size : BitVec 32) : Decidable (SizeFits room size) :=
  inferInstanceAs (Decidable (_ ∧ _))

instance (room : Nat) (nic : Nic) (i : Input) : Decidable (Within room nic i) :=
  decidable_of_iff (i.env.object.isSome = true ∧
      (∀ s ∈ opSegment nic i.env.pad i.op, SizeFits room s.size) ∧
        i.op.token.length ≤ sizeofPayload ∧ i.op.token.length ≤ room)
    ⟨fun h => ⟨Option.isSome_iff_ne_none.mp h.1, h.2.1, h.2.2⟩,
      fun h => ⟨Option.isSome_iff_ne_none.mpr h.object, h.segment, h.token⟩⟩

theorem not_fails {i : Input} (h : Within room k.tcp.nic i) : ¬k.Fails room i := by
  have hobj := h.object
  have hseg := h.segment
  have htoken := h.token
  unfold Core.Fails
  generalize k.conn (keyOf k.tcp.nic i) = o
  generalize i.op = op at hseg htoken ⊢
  cases op with
  | rx p =>
    cases o with
    | none =>
      rintro ⟨s, hs, -, hno | ⟨-, hbad⟩⟩
      · exact hobj hno
      · exact hbad (hseg s hs)
    | some c =>
      rintro ⟨s, hs, -, -, hbad⟩
      exact hbad (hseg s hs)
  | connect _ _ _ =>
    cases o with
    | none => exact hobj
    | some _ => exact id
  | close _ =>
    cases o with
    | none => exact id
    | some _ => exact id
  | send _ data =>
    cases o with
    | none => exact id
    | some c =>
      change data.length ≤ sizeofPayload ∧ data.length ≤ room at htoken
      have hmax : sizeofPayload = 100 := rfl
      have hsize : (BitVec.ofNat 32 data.length).toInt = data.length := by
        rw [BitVec.toInt_eq_toNat_cond, BitVec.toNat_ofNat]
        omega
      rintro (hlong | ⟨-, hbad⟩)
      · omega
      · exact hbad ⟨by omega, by omega⟩

theorem boundedPath_rep {tr : List (boundedMachine K room).Event} {k' : Core}
    (hp : Machine.Path k tr k') (h : k.Rep) : k'.Rep ∧ k'.tcp.nic = k.tcp.nic :=
  path_rep (Machine.guard_path hp) h

/-- From any state a core can reach, its inputs are all survived but for one: the first
that finds no object for a connection to be made of, or has it copy more than there is
room for into a connection or into a buffer. Inputs within bounds are survived, whatever
they are and however many. -/
theorem survives_iff {tr : List (boundedMachine K room).Event} (h : Machine.Run tr k)
    (is : List Input) :
    ((boundedMachine K room).replay k is ≠ none ↔ ∀ is₁ i is₂ xs k', is = is₁ ++ i :: is₂ →
      (boundedMachine K room).replay k is₁ = some (xs, k') → ¬k'.Fails room i) ∧
    ((∀ i ∈ is, Within room k.tcp.nic i) → (boundedMachine K room).replay k is ≠ none) := by
  have hrep : k.Rep := run_rep (Machine.guard_run h)
  have hiff : (boundedMachine K room).replay k is ≠ none ↔
      ∀ is₁ i is₂ xs k', is = is₁ ++ i :: is₂ →
        (boundedMachine K room).replay k is₁ = some (xs, k') → ¬k'.Fails room i := by
    rw [Ne, Machine.replay_none_iff]
    constructor
    · intro hne is₁ i is₂ xs k' hi hr hfails
      have hrep' := (boundedPath_rep (Machine.replay_path hr) hrep).1
      exact hne ⟨is₁, i, is₂, xs, k', hi, hr, (boundedStep_none_iff hrep' i).mpr hfails⟩
    · rintro hall ⟨is₁, i, is₂, xs, k', hi, hr, hnone⟩
      have hrep' := (boundedPath_rep (Machine.replay_path hr) hrep).1
      exact hall is₁ i is₂ xs k' hi hr ((boundedStep_none_iff hrep' i).mp hnone)
  refine ⟨hiff, fun hs => hiff.mpr fun is₁ i is₂ xs k' hi hr => ?_⟩
  apply not_fails
  rw [(boundedPath_rep (Machine.replay_path hr) hrep).2]
  exact hs i (by simp [hi])

end

/-- The first SYN finds no object, and 101 bytes find no place in a connection. -/
theorem survives_iff_noRoom :
    (boundedMachine rfcCksum 1994).replay host (peerOpens ++ [userSend [0x41]]) ≠ none ∧
      ¬(boundedMachine rfcCksum 1994).replay host
        [⟨.rx (peerPacket rteTcpSynFlag 0 0 []), { calm with object := none }⟩] ≠ none ∧
      ¬(boundedMachine rfcCksum 1994).replay host
        (peerOpens ++ [userSend (List.replicate 101 0x61)]) ≠ none := by
  have h0 : Machine.Run (M := boundedMachine rfcCksum 1994) [] host :=
    Machine.run_nil.mpr (host_init rfcCksum)
  refine ⟨?_, ?_, ?_⟩
  · refine (survives_iff h0 _).2 ?_
    decide +kernel
  · rw [(survives_iff h0 _).1]
    intro h
    refine h [] _ [] [] host rfl rfl ?_
    exact ⟨_, rxSegment_accepts rfl rfl rfl rfl, rfl, Or.inl rfl⟩
  · rw [(survives_iff h0 _).1]
    intro h
    have hopens : ((boundedMachine rfcCksum 1994).replay host peerOpens).any (fun r =>
        (r.2.conn peerQuad).isSome) = true := by decide +kernel
    obtain ⟨⟨xs, k⟩, hr, hc⟩ := (Option.any_eq_true ..).mp hopens
    obtain ⟨c, hc⟩ := Option.isSome_iff_exists.mp hc
    refine h peerOpens (userSend (List.replicate 101 0x61)) [] xs k rfl hr ?_
    unfold Core.Fails
    have hkey : k.conn (keyOf k.tcp.nic (userSend (List.replicate 101 0x61))) = some c := hc
    rw [hkey]
    exact Or.inl (by decide)

end TcpDpdk

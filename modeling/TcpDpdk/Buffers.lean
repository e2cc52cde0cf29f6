import Mathlib.Data.List.Basic
import Mathlib.Data.List.Perm.Basic
import TcpDpdk.Frames
import TcpDpdk.Keys

/-!
# Packet buffers

Who holds an mbuf. `send_p` takes one from the pool, fills it, hands it to the
driver and puts it back into the pool, whether the driver took it or not. The
receive loop is handed mbufs in bursts and puts each one back at the end of its
body, which two `continue`s do not reach.
-/

namespace TcpDpdk

/-! ## Transmission -/

structure TxBuffers where
  /-- the mbufs of the pool -/
  population : List Nat
  pool : List Nat
  /-- those accepted by the driver, until it has sent them -/
  queue : List Nat
  mem : Nat → Option Frame

/-- Which of the free ones it is that is found at hand, if any, is up to DPDK. -/
def rteMbufRawAlloc (b : TxBuffers) (i : Nat) : Option (Nat × TxBuffers) :=
  b.pool[i]?.map fun pkt => (pkt, { b with pool := b.pool.eraseIdx i })

def rteMbufRawFree (b : TxBuffers) (pkt : Nat) : TxBuffers := { b with pool := pkt :: b.pool }

/-- Also returns how many of the frames, here one, the driver took. -/
def rteEthTxBurst (b : TxBuffers) (pkt : Nat) (accepts : Bool) : TxBuffers × BitVec 16 :=
  if accepts then ({ b with queue := b.queue ++ [pkt] }, 1) else (b, 0)

def sendPMbuf (b : TxBuffers) (i : Nat) (accepts : Bool) (f : Frame) : TxBuffers :=
  match rteMbufRawAlloc b i with
  | none => b
  | some (pkt, b) =>
    let b := { b with mem := Function.update b.mem pkt (some f) }
    let (b, _nbTx) := rteEthTxBurst b pkt accepts
    rteMbufRawFree b pkt

structure TxState where
  core : Core
  bufs : TxBuffers

inductive TxInput where
  | op (op : Op) (env : Env) (i : Nat) (accepts : Bool)
  /-- the driver has sent a frame and frees its mbuf -/
  | done (i : Nat)

/-- A step of the core sends one frame at most. It has a buffer for it if the pool gives one. -/
def txStep (K : RteCksum) (s : TxState) : TxInput → Option (TxState × List Frame)
  | .op op env i accepts =>
    (step K s.core ⟨op, { env with mbuf := s.bufs.pool[i]?.isSome }⟩).map fun (k, out) =>
      match out.frames with
      | [] => (⟨k, s.bufs⟩, [])
      | f :: fs => (⟨k, sendPMbuf s.bufs i accepts f⟩, f :: fs)
  | .done i =>
    s.bufs.queue[i]?.map fun pkt =>
      (⟨s.core, { s.bufs with pool := pkt :: s.bufs.pool, queue := s.bufs.queue.eraseIdx i }⟩, [])

def txMachine (K : RteCksum) : Machine TxState TxInput (List Frame) where
  init s := (machine K).init s.core ∧ s.bufs.population.Nodup ∧ s.bufs.pool = s.bufs.population ∧
    s.bufs.queue = []
  step := txStep K

/-- Every mbuf is in one place: in the pool or with the driver. -/
def TxBuffers.Conserved (b : TxBuffers) : Prop :=
  (b.pool ++ b.queue).Nodup ∧ (b.pool ++ b.queue).Perm b.population

def TxBuffers.Fresh (b : TxBuffers) : Prop :=
  ∀ i pkt b', rteMbufRawAlloc b i = some (pkt, b') → pkt ∉ b.queue

def Refused {K : RteCksum} (e : (txMachine K).Event) : Prop :=
  ∀ op env i accepts, e.input = .op op env i accepts → e.out ≠ [] → accepts = false

theorem conserved_of_perm {b b' : TxBuffers} (h : b.Conserved)
    (hp : (b'.pool ++ b'.queue).Perm (b.pool ++ b.queue)) (hpop : b'.population = b.population) :
    b'.Conserved := ⟨hp.nodup_iff.mpr h.1, hpop ▸ hp.trans h.2⟩

theorem TxBuffers.Conserved.fresh {b : TxBuffers} (h : b.Conserved) : b.Fresh := by
  intro i pkt b' ha
  obtain ⟨pkt', hi, he⟩ := Option.map_eq_some_iff.mp ha
  cases he
  intro hq
  exact (List.nodup_append.mp h.1).2.2 pkt (List.mem_of_getElem? hi) pkt hq rfl

theorem eraseIdx_perm {l : List Nat} {i x : Nat} (h : l[i]? = some x) : (x :: l.eraseIdx i).Perm l := by
  obtain ⟨hi, rfl⟩ := List.getElem?_eq_some_iff.mp h
  exact List.getElem_cons_eraseIdx_perm hi

/-- The mbuf goes back into the pool; one the driver took is then in both places. -/
theorem sendPMbuf_conserved {b : TxBuffers} (h : b.Conserved) {i pkt : Nat} {accepts : Bool} {f : Frame}
    (hi : b.pool[i]? = some pkt) : (sendPMbuf b i accepts f).Conserved ↔ accepts = false := by
  have hperm := eraseIdx_perm hi
  have hsend : sendPMbuf b i accepts f = { b with
      pool := pkt :: b.pool.eraseIdx i
      queue := if accepts then b.queue ++ [pkt] else b.queue
      mem := Function.update b.mem pkt (some f) } := by
    unfold sendPMbuf rteMbufRawAlloc rteEthTxBurst rteMbufRawFree
    rw [hi]
    cases accepts <;> rfl
  rw [hsend]
  cases accepts with
  | false => exact iff_of_true (conserved_of_perm h (hperm.append_right _) rfl) rfl
  | true =>
    refine iff_of_false (fun hc => ?_) (by decide)
    have hlen := hc.2.length_eq
    have hlen' := h.2.length_eq
    have hone := hperm.length_eq
    simp only [List.length_append, List.length_cons, ite_true, List.length_nil] at hlen hlen' hone
    omega

section
variable {K : RteCksum}

/-! ### What a step of the core hands to the driver -/

theorem slot_sendP {env : Env} {t : Tcp} {op : Op} {o o' : Option Connection} {out : Out}
    (h : Slot K env t op o o' out) :
    out.frames = [] ∨ ∃ c data n, sendP env t c data n = some out.frames := by
  cases h with
  | dropped _ => exact Or.inl rfl
  | unknown _ _ => exact Or.inl rfl
  | opened _ _ _ hp _ => exact Or.inr ⟨_, _, _, hp⟩
  | handled _ hrx =>
    cases hrx with
    | ignored _ => exact Or.inl rfl
    | synAgain _ _ _ hp => exact Or.inr ⟨_, _, _, hp⟩
    | synAcked _ _ _ => exact Or.inl rfl
    | synAnswered _ _ hp => exact Or.inr ⟨_, _, _, hp⟩
    | finAnswered _ _ _ hp => exact Or.inr ⟨_, _, _, hp⟩
    | acked _ _ _ _ => exact Or.inl rfl
    | dataAnswered _ _ _ _ hp => exact Or.inr ⟨_, _, _, hp⟩
    | finAcked _ _ _ hp => exact Or.inr ⟨_, _, _, hp⟩
    | finAcked2 _ _ hp => exact Or.inr ⟨_, _, _, hp⟩
    | closed _ => exact Or.inl rfl
  | connected _ hp _ => exact Or.inr ⟨_, _, _, hp⟩
  | present => exact Or.inl rfl
  | noClose => exact Or.inl rfl
  | noSend => exact Or.inl rfl
  | finSent hp => exact Or.inr ⟨_, _, _, hp⟩
  | dataSent hp => exact Or.inr ⟨_, _, _, hp⟩

/-- A step calls `send_p` once at most, and what it sends it had a buffer for. -/
theorem step_frames {k k' : Core} {i : Input} {out : Out} (hrep : k.Rep)
    (h : step K k i = some (k', out)) :
    out.frames = [] ∨ ∃ f, out.frames = [f] ∧ i.env.mbuf = true := by
  obtain ⟨o, -, hslot⟩ := step_slot hrep h
  rcases slot_sendP hslot with hnil | ⟨c, data, n, hp⟩
  · exact Or.inl hnil
  · rcases sendP_some hp with ⟨hnil, -⟩ | ⟨hone, hm, -⟩
    · exact Or.inl hnil
    · exact Or.inr ⟨_, hone, hm⟩

theorem tx_run_core {tr : List (txMachine K).Event} {s : TxState} (h : Machine.Run tr s) :
    ∃ tr' : List (machine K).Event, Machine.Run tr' s.core := by
  refine Machine.Run.induct (P := fun _ s => ∃ tr' : List (machine K).Event, Machine.Run tr' s.core)
    ?_ ?_ h
  · intro s hs
    exact ⟨[], Machine.run_nil.mpr hs.1⟩
  · intro _ ⟨s, input, s', out, hfired⟩ _ ⟨tr', hr⟩
    change txStep K s input = some (s', out) at hfired
    cases input with
    | op op env i accepts =>
      obtain ⟨⟨k, o⟩, hstep, he⟩ := Option.map_eq_some_iff.mp hfired
      have hcore : s'.core = k := by
        dsimp only at he
        split at he <;> cases he <;> rfl
      refine ⟨tr' ++ [⟨s.core, _, k, o, hstep⟩], Machine.run_snoc.mpr ⟨hr, hcore.symm⟩⟩
    | done i =>
      obtain ⟨pkt, -, he⟩ := Option.map_eq_some_iff.mp hfired
      cases he
      exact ⟨tr', hr⟩

theorem event_conserved {e : (txMachine K).Event} (hrep : e.pre.core.Rep)
    (h : e.pre.bufs.Conserved) : e.post.bufs.Conserved ↔ Refused e := by
  obtain ⟨s, input, s', out, hfired⟩ := e
  change s.bufs.Conserved at h
  change txStep K s input = some (s', out) at hfired
  show s'.bufs.Conserved ↔ ∀ op env i accepts, input = .op op env i accepts → out ≠ [] → accepts = false
  cases input with
  | op op env i accepts =>
    obtain ⟨⟨k, o⟩, hstep, he⟩ := Option.map_eq_some_iff.mp hfired
    have only : (∀ op' env' i' accepts', TxInput.op op env i accepts = .op op' env' i' accepts' →
        out ≠ [] → accepts' = false) ↔ (out ≠ [] → accepts = false) :=
      ⟨fun h => h _ _ _ _ rfl, fun h _ _ _ _ hx => by cases hx; exact h⟩
    rw [only]
    rcases step_frames hrep hstep with hnil | ⟨f, hone, hm⟩
    · simp only [hnil] at he
      cases he
      exact iff_of_true h fun hne => absurd rfl hne
    · simp only [hone] at he
      cases he
      obtain ⟨pkt, hi⟩ := Option.isSome_iff_exists.mp hm
      rw [sendPMbuf_conserved h hi]
      exact ⟨fun ha _ => ha, fun ha => ha (List.cons_ne_nil f [])⟩
  | done i =>
    obtain ⟨pkt, hq, he⟩ := Option.map_eq_some_iff.mp hfired
    cases he
    refine iff_of_true (conserved_of_perm h ?_ rfl) fun _ _ _ _ hx => nomatch hx
    exact List.perm_middle.symm.trans ((eraseIdx_perm hq).append_left _)

/-- In every run every mbuf is in one place after every step, and none that is with
the driver can be allocated, exactly if the driver takes none of the frames it is handed. -/
theorem tx_conserved_iff {tr : List (txMachine K).Event} {s : TxState} (h : Machine.Run tr s) :
    (∀ e ∈ tr, e.post.bufs.Conserved ∧ e.post.bufs.Fresh) ↔ ∀ e ∈ tr, Refused e := by
  rw [← Machine.meets_mem, ← Machine.meets_mem]
  have step : ∀ (tr : List (txMachine K).Event) (e : (txMachine K).Event), Machine.Run tr e.pre →
      e.pre.bufs.Conserved → (e.post.bufs.Conserved ∧ e.post.bufs.Fresh ↔ Refused e) := by
    intro tr e hr hc
    obtain ⟨tr', hr'⟩ := tx_run_core hr
    rw [and_iff_left_of_imp fun hc => hc.fresh]
    exact event_conserved (run_rep hr') hc
  refine Machine.Run.meets_iff_inv (I := fun _ s => s.bufs.Conserved) ?_ step ?_ h
  · intro s ⟨_, hnodup, hpool, hqueue⟩
    have hall : s.bufs.pool ++ s.bufs.queue = s.bufs.population := by
      rw [hqueue, List.append_nil, hpool]
    unfold TxBuffers.Conserved
    rw [hall]
    exact ⟨hnodup, List.Perm.refl _⟩
  · intro tr e hr hc hD
    exact ((step tr e hr hc).mpr hD).1

end

instance (b : TxBuffers) : Decidable b.Conserved := inferInstanceAs (Decidable (_ ∧ _))

def txHost : TxState where
  core := host
  bufs := { population := [0, 1], pool := [0, 1], queue := [], mem := fun _ => none }

theorem txHost_init (K : RteCksum) : (txMachine K).init txHost :=
  ⟨host_init K, by decide, rfl, rfl⟩

theorem tx_conserved_iff_connect : ∃ (tr : List (txMachine rfcCksum).Event) (s : TxState),
    Machine.Run tr s ∧ tr.length = 1 ∧
      ((∀ e ∈ tr, e.post.bufs.Conserved ∧ e.post.bufs.Fresh) ↔ ∀ e ∈ tr, Refused e) := by
  obtain ⟨tr, s, hr, hQ⟩ := Machine.exists_run (txHost_init rfcCksum)
    [.op (.connect peerNic.ip peerPort hostPort) calm 0 false] (Q := fun r => r.1.length = 1)
    (by decide +kernel)
  exact ⟨tr, s, hr, of_decide_eq_true hQ, tx_conserved_iff hr⟩

/-- The driver takes the first SYN sent, and its mbuf is in the pool all the same. -/
theorem not_tx_conserved : ¬∀ (tr : List (txMachine rfcCksum).Event) (s : TxState),
    Machine.Run tr s → ∀ e ∈ tr, e.post.bufs.Conserved ∧ e.post.bufs.Fresh := by
  intro h
  obtain ⟨tr, s, hr, e, he, hQ⟩ := Machine.exists_event (txHost_init rfcCksum)
    [.op (.connect peerNic.ip peerPort hostPort) calm 0 true]
    (Q := fun e => ¬e.post.bufs.Conserved) (by decide +kernel)
  exact of_decide_eq_true hQ (h tr s hr e he).1

/-! ## Reception -/

/-- The body of the receive loop for one mbuf; also returns whether it comes to
`rte_pktmbuf_free`. What it does in between is `tcpRxPacket`, which makes the same tests. -/
def rxBody (K : RteCksum) (env : Env) (k : Core) (b : Mbuf) : Option (Core × Out × Bool) :=
  let p := b.packet
  if p.ether.dAddr ≠ k.tcp.nic.mac then
    some (k, {}, false) -- continue
  else if p.ether.etherType = rteBeToCpu16 rteEtherTypeIpv4 then
    if k.tcp.nic.ip ≠ p.ipv4.dstAddr then
      some (k, {}, false) -- continue
    else
      (tcpRxPacket K env k p).map fun (k, out) => (k, out, true)
  else
    some (k, {}, true)

structure RxFrame where
  id : Nat
  mbuf : Mbuf
  env : Env

structure BurstOut where
  outs : List Out
  freed : List Nat

def rxBurst (K : RteCksum) : Core → List RxFrame → Option (Core × BurstOut)
  | k, [] => some (k, ⟨[], []⟩)
  | k, f :: fs =>
    match rxBody K f.env k f.mbuf with
    | none => none
    | some (k, out, frees) =>
      (rxBurst K k fs).map fun (k, b) =>
        (k, ⟨out :: b.outs, if frees then f.id :: b.freed else b.freed⟩)

structure RxState where
  core : Core
  /-- mbufs the loop was given and has not freed -/
  held : List Nat

inductive RxInput where
  | burst (frames : List RxFrame)
  | command (i : Input)

def rxStep (K : RteCksum) (s : RxState) : RxInput → Option (RxState × BurstOut)
  | .burst frames =>
    (rxBurst K s.core frames).map fun (k, b) =>
      (⟨k, (s.held ++ frames.map (·.id)).diff b.freed⟩, b)
  | .command i =>
    match i.op with
    | .rx _ => none -- frames come in bursts
    | _ => (step K s.core i).map fun (k, out) => (⟨k, s.held⟩, ⟨[out], []⟩)

def rxMachine (K : RteCksum) : Machine RxState RxInput BurstOut where
  init s := (machine K).init s.core ∧ s.held = []
  step := rxStep K

/-- Every mbuf of the burst is freed, once, and none is left with the loop. -/
def Released {K : RteCksum} (e : (rxMachine K).Event) : Prop :=
  e.post.held = [] ∧ ∀ frames, e.input = .burst frames → e.out.freed.Perm (frames.map (·.id))

def Packet.ReachesFree (nic : Nic) (p : Packet) : Prop :=
  p.ether.dAddr = nic.mac ∧
    (p.ether.etherType = rteBeToCpu16 rteEtherTypeIpv4 → nic.ip = p.ipv4.dstAddr)

instance (nic : Nic) (p : Packet) : Decidable (p.ReachesFree nic) :=
  inferInstanceAs (Decidable (_ ∧ _))

/-- Every frame is for this host: its MAC address and, in an IP packet, its address. -/
def ForUs {K : RteCksum} (e : (rxMachine K).Event) : Prop :=
  ∀ frames, e.input = .burst frames → ∀ f ∈ frames, f.mbuf.packet.ReachesFree e.pre.core.tcp.nic

section
variable {K : RteCksum}

theorem rxBody_some {env : Env} {k k' : Core} {b : Mbuf} {out : Out} {frees : Bool}
    (h : rxBody K env k b = some (k', out, frees)) :
    tcpRxPacket K env k b.packet = some (k', out) ∧
      frees = decide (b.packet.ReachesFree k.tcp.nic) := by
  unfold rxBody at h
  unfold Packet.ReachesFree
  dsimp only at h
  split at h
  · rename_i hmac
    cases h
    refine ⟨?_, by simp [hmac]⟩
    unfold tcpRxPacket rxSegment
    rw [if_pos hmac]
  · rename_i hmac
    rw [not_not] at hmac
    split at h
    · rename_i htype
      split at h
      · rename_i hip
        cases h
        refine ⟨?_, by simp [hmac, htype, hip]⟩
        unfold tcpRxPacket rxSegment
        rw [if_neg (not_not.mpr hmac), if_pos htype, if_pos hip]
      · rename_i hip
        rw [not_not] at hip
        obtain ⟨r, hr, he⟩ := Option.map_eq_some_iff.mp h
        cases he
        exact ⟨hr, by simp [hmac, hip]⟩
    · rename_i htype
      cases h
      refine ⟨?_, by simp [hmac, htype]⟩
      unfold tcpRxPacket rxSegment
      rw [if_neg (not_not.mpr hmac), if_neg htype]

theorem rxBurst_freed {frames : List RxFrame} : ∀ {k k' : Core} {b : BurstOut}, k.Rep →
    rxBurst K k frames = some (k', b) →
    k'.Rep ∧ k'.tcp.nic = k.tcp.nic ∧
      b.freed = (frames.filter fun f => f.mbuf.packet.ReachesFree k.tcp.nic).map (·.id) := by
  induction frames with
  | nil =>
    intro k k' b hrep h
    cases h
    exact ⟨hrep, rfl, rfl⟩
  | cons f fs ih =>
    intro k k' b hrep h
    unfold rxBurst at h
    split at h
    · cases h
    · rename_i k₁ out frees hbody
      obtain ⟨⟨k₂, b'⟩, hrest, he⟩ := Option.map_eq_some_iff.mp h
      cases he
      obtain ⟨hpkt, hfrees⟩ := rxBody_some hbody
      have hstep : step K k ⟨.rx f.mbuf.packet, f.env⟩ = some (k₁, out) := hpkt
      obtain ⟨o, ht, -⟩ := step_slot hrep hstep
      obtain ⟨hrep', hnic, hfreed⟩ := ih ht.rep hrest
      refine ⟨hrep', hnic.trans ht.nic, ?_⟩
      rw [hfreed, ht.nic, hfrees, List.filter_cons]
      by_cases hr : f.mbuf.packet.ReachesFree k.tcp.nic <;> simp [hr]

theorem rxStep_core {s s' : RxState} {i : RxInput} {out : BurstOut} (hrep : s.core.Rep)
    (h : rxStep K s i = some (s', out)) : s'.core.Rep := by
  cases i with
  | burst frames =>
    obtain ⟨⟨k, b⟩, hburst, he⟩ := Option.map_eq_some_iff.mp h
    cases he
    exact (rxBurst_freed hrep hburst).1
  | command i =>
    unfold rxStep at h
    dsimp only at h
    split at h
    · cases h
    · obtain ⟨⟨k, o⟩, hstep, he⟩ := Option.map_eq_some_iff.mp h
      cases he
      obtain ⟨_, ht, -⟩ := step_slot hrep hstep
      exact ht.rep

theorem rx_run_rep {tr : List (rxMachine K).Event} {s : RxState} (h : Machine.Run tr s) : s.core.Rep :=
  Machine.Run.inv (P := fun s => s.core.Rep)
    (fun _ ⟨hcore, _⟩ => run_rep (Machine.run_nil.mpr hcore)) (fun e he => rxStep_core he e.fired) h

theorem filter_freed {frames : List RxFrame} {p : RxFrame → Bool} :
    ((frames.filter p).map (·.id)).Perm (frames.map (·.id)) ↔ ∀ f ∈ frames, p f = true := by
  constructor
  · intro h
    have hlen := h.length_eq
    rw [List.length_map, List.length_map] at hlen
    exact List.filter_eq_self.mp (List.filter_sublist.eq_of_length hlen)
  · intro h
    rw [List.filter_eq_self.mpr h]

theorem diff_self : ∀ l : List Nat, l.diff l = []
  | [] => rfl
  | a :: l => by rw [List.diff_cons, List.erase_cons_head, diff_self l]

theorem event_released {e : (rxMachine K).Event} (hrep : e.pre.core.Rep) (hheld : e.pre.held = []) :
    Released e ↔ ForUs e := by
  obtain ⟨s, i, s', out, hfired⟩ := e
  change s.core.Rep at hrep
  change s.held = [] at hheld
  change rxStep K s i = some (s', out) at hfired
  show (s'.held = [] ∧ ∀ frames, i = .burst frames → out.freed.Perm (frames.map (·.id))) ↔
    ∀ frames, i = .burst frames → ∀ f ∈ frames, f.mbuf.packet.ReachesFree s.core.tcp.nic
  cases i with
  | burst frames =>
    obtain ⟨⟨k, b⟩, hburst, he⟩ := Option.map_eq_some_iff.mp hfired
    cases he
    obtain ⟨-, -, hfreed⟩ := rxBurst_freed hrep hburst
    have all : (out.freed.Perm (frames.map (·.id))) ↔
        ∀ f ∈ frames, f.mbuf.packet.ReachesFree s.core.tcp.nic := by
      rw [hfreed, filter_freed]
      simp only [decide_eq_true_eq]
    constructor
    · intro ⟨_, hperm⟩ frames' hx
      cases hx
      exact all.mp (hperm frames rfl)
    · intro hus
      have hperm := all.mpr (hus frames rfl)
      refine ⟨?_, fun frames' hx => by cases hx; exact hperm⟩
      show (s.held ++ frames.map (·.id)).diff out.freed = []
      rw [hheld, List.nil_append, hperm.diff_left, diff_self]
  | command i =>
    refine iff_of_true ⟨?_, fun _ hx => nomatch hx⟩ fun _ hx => nomatch hx
    unfold rxStep at hfired
    dsimp only at hfired
    split at hfired
    · cases hfired
    · obtain ⟨r, -, he⟩ := Option.map_eq_some_iff.mp hfired
      cases he
      exact hheld

/-- In every run the loop gives back every mbuf of every burst before it asks for the
next, exactly if all the frames are for this host. -/
theorem rx_released_iff {tr : List (rxMachine K).Event} {s : RxState} (h : Machine.Run tr s) :
    (∀ e ∈ tr, Released e) ↔ ∀ e ∈ tr, ForUs e := by
  rw [← Machine.meets_mem, ← Machine.meets_mem]
  refine Machine.Run.meets_iff_inv (I := fun _ s => s.held = []) ?_ ?_ ?_ h
  · intro s ⟨_, hheld⟩
    exact hheld
  · intro tr e hr hheld
    exact event_released (rx_run_rep hr) hheld
  · intro tr e hr hheld hus
    exact ((event_released (rx_run_rep hr) hheld).mpr hus).1

end

def rxHost : RxState := ⟨host, []⟩

theorem rxHost_init (K : RteCksum) : (rxMachine K).init rxHost := ⟨host_init K, rfl⟩

/-- An ARP request, as it comes to every machine on the network or to one. -/
def arpRequest (dAddr : List Byte) : RxFrame where
  id := 0
  mbuf := frameOf (dAddr ++ [2, 0, 0, 0, 0, 0, 0x08, 0x06] ++ List.replicate 46 0)
  env := calm

theorem rx_released_iff_arp : ∃ (tr : List (rxMachine rfcCksum).Event) (s : RxState),
    Machine.Run tr s ∧ tr.length = 1 ∧ ((∀ e ∈ tr, Released e) ↔ ∀ e ∈ tr, ForUs e) := by
  obtain ⟨tr, s, hr, hQ⟩ := Machine.exists_run (rxHost_init rfcCksum)
    [.burst [arpRequest [1, 0, 0, 0, 0, 0]]] (Q := fun r => r.1.length = 1) (by decide +kernel)
  exact ⟨tr, s, hr, of_decide_eq_true hQ, rx_released_iff hr⟩

/-- A broadcast is dropped by the first `continue`, and its mbuf stays with the loop. -/
theorem not_rx_released : ¬∀ (tr : List (rxMachine rfcCksum).Event) (s : RxState),
    Machine.Run tr s → ∀ e ∈ tr, Released e := by
  intro h
  obtain ⟨tr, s, hr, e, he, hQ⟩ := Machine.exists_event (rxHost_init rfcCksum)
    [.burst [arpRequest (List.replicate 6 0xff)]] (Q := fun e => e.post.held ≠ []) (by decide +kernel)
  exact of_decide_eq_true hQ (h tr s hr e he).1

end TcpDpdk

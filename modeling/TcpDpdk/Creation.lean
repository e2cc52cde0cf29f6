import TcpDpdk.Ownership

/-!
# Making a connection

A SYN of an unknown quad and the command `connect` make a connection the same way:
allocate, fill in, send, insert. No result on that way is looked at. `Made` is the
filled-in object and what is sent from it, `step_attempt` the whole of such a step.
-/

namespace TcpDpdk

def Input.opens (nic : Nic) (i : Input) : Bool :=
  match i.op with
  | .rx p => (rxSegment nic i.env.pad p).any (·.tcpHdr.tcpFlags = rteTcpSynFlag)
  | .connect _ _ _ => true
  | _ => false

/-- The quad of the step is not in the table, and the step goes on to make a
connection for it. -/
def Attempts (k : Core) (i : Input) : Prop :=
  k.tcp.rteHash.lookup (keyOf k.tcp.nic i) = none ∧ i.opens k.tcp.nic = true

instance (k : Core) (i : Input) : Decidable (Attempts k i) := inferInstanceAs (Decidable (_ ∧ _))

/-- `c`, made in the object `g`, is sent with `n` bytes from `data`. -/
inductive Made (nic : Nic) (g : Connection) : Input → Connection → Mem → BitVec 64 → Prop
  | listened {p env s} : rxSegment nic env.pad p = some s → s.tcpHdr.tcpFlags = rteTcpSynFlag →
      Made nic g ⟨.rx p, env⟩ (listenConnection g s) s.data (sizeT s.size)
  | connected {dip dport sport env} :
      Made nic g ⟨.connect dip dport sport, env⟩
        (connectConnection g (connectQuad nic env.pad dip dport sport)) Mem.null 0

def Core.inserted (k : Core) (q : Quad) (c : Connection) : Core where
  tcp := { k.tcp with rteHash := k.tcp.rteHash.add q k.heap.next }
  heap := k.heap.alloc c

theorem made_key {nic : Nic} {g c : Connection} {i : Input} {data : Mem} {n : BitVec 64}
    (h : Made nic g i c data n) : c.q = keyOf nic i := by
  cases h with
  | listened hs _ =>
    obtain ⟨-, rfl⟩ := rxSegment_some hs
    rfl
  | connected => rfl

/-! ## One step -/

section
variable {K : RteCksum} {k k' : Core} {i : Input} {out : Out} {g : Connection}

theorem attempt_segment {p : Packet} {env : Env} (h : Attempts k ⟨.rx p, env⟩) :
    ∃ s, rxSegment k.tcp.nic env.pad p = some s ∧ s.tcpHdr.tcpFlags = rteTcpSynFlag ∧
      keyOf k.tcp.nic ⟨.rx p, env⟩ = s.q ∧ k.tcp.rteHash.lookup s.q = none := by
  obtain ⟨hl, hs⟩ := h
  obtain ⟨s, hs, hf⟩ := (Option.any_eq_true ..).mp hs
  have hk : keyOf k.tcp.nic ⟨.rx p, env⟩ = s.q := by
    obtain ⟨-, rfl⟩ := rxSegment_some hs
    rfl
  exact ⟨s, hs, of_decide_eq_true hf, hk, hk ▸ hl⟩

theorem attempt_fails (h : Attempts k i) (hg : i.env.object = none) : step K k i = none := by
  obtain ⟨op, env⟩ := i
  dsimp only at hg
  cases op with
  | rx p =>
    obtain ⟨s, hs, hf, -, hl⟩ := attempt_segment h
    have hL : handleTcpListen K env k.tcp s = none := by
      unfold handleTcpListen
      rw [if_neg (not_not.mpr hf), hg]
    simp only [step, tcpRxPacket, hs, rxDispatch, hl, hL, Option.map_none]
  | connect dip dport sport =>
    have hl : k.tcp.rteHash.lookup (connectQuad k.tcp.nic env.pad dip dport sport) = none := h.1
    simp only [step, activeConnect, hl, hg]
  | close q => cases h.2
  | send q data => cases h.2

theorem attempt_makes (h : Attempts k i) (hg : i.env.object = some g) :
    ∃ c data n, Made k.tcp.nic g i c data n ∧
      step K k i = (tcpTxPackets K i.env k.tcp c data n).map fun r =>
        (k.inserted (keyOf k.tcp.nic i) r.1, { frames := r.2 }) := by
  obtain ⟨op, env⟩ := i
  dsimp only at hg
  cases op with
  | rx p =>
    obtain ⟨s, hs, hf, hk, hl⟩ := attempt_segment h
    refine ⟨_, _, _, .listened hs hf, ?_⟩
    have hL : handleTcpListen K env k.tcp s =
        (tcpTxPackets K env k.tcp (listenConnection g s) s.data (sizeT s.size)).map fun r =>
          (some r.1, { frames := r.2 }) := by
      unfold handleTcpListen
      rw [if_neg (not_not.mpr hf), hg]
    rw [hk]
    simp only [step, tcpRxPacket, hs, rxDispatch, hl, hL, Option.map_map]
    rfl
  | connect dip dport sport =>
    have hl : k.tcp.rteHash.lookup (connectQuad k.tcp.nic env.pad dip dport sport) = none := h.1
    refine ⟨_, _, _, .connected, ?_⟩
    simp only [step, activeConnect, hl, hg]
    rfl
  | close q => cases h.2
  | send q data => cases h.2

theorem step_attempt (h : Attempts k i) (hw : step K k i = some (k', out)) :
    ∃ g c data n frames, i.env.object = some g ∧ Made k.tcp.nic g i c data n ∧
      sendP i.env k.tcp (txHeaders K c n) data n = some frames ∧
      k' = k.inserted (keyOf k.tcp.nic i) (c.sent K n) ∧ out = { frames } := by
  cases hg : i.env.object with
  | none => cases (attempt_fails h hg).symm.trans hw
  | some g =>
    obtain ⟨c, data, n, hm, he⟩ := attempt_makes (K := K) h hg
    obtain ⟨⟨d, frames⟩, hx, hr⟩ := Option.map_eq_some_iff.mp (he.symm.trans hw)
    obtain ⟨rfl, hp⟩ := tcpTxPackets_some hx
    cases hr
    exact ⟨g, c, data, n, frames, rfl, hm, hp, rfl, rfl⟩

theorem inserted_conn {q : Quad} (hroom : k.tcp.rteHash.Room q) (c : Connection) :
    (k.inserted q c).conn q = some c :=
  conn_of_lookup (Store.Table.lookup_add hroom) (Store.Heap.read_alloc ..)

theorem inserted_full {q : Quad} (hroom : ¬k.tcp.rteHash.Room q) (c : Connection) :
    (k.inserted q c).tcp = k.tcp := by
  unfold Core.inserted
  rw [Store.Table.add_full hroom]

theorem attempts_of_slot {o : Option Connection} (hl : k.tcp.rteHash.lookup (keyOf k.tcp.nic i) = none)
    (hslot : Slot K i.env k.tcp i.op none o out) (hnew : o ≠ none ∨ out.frames ≠ []) :
    Attempts k i := by
  have nothing : ¬((none : Option Connection) ≠ none ∨ ({} : Out).frames ≠ []) := by simp
  refine ⟨hl, ?_⟩
  obtain ⟨op, env⟩ := i
  unfold Input.opens
  cases hslot with
  | dropped _ => exact absurd hnew nothing
  | unknown _ _ => exact absurd hnew nothing
  | opened hs hf _ _ _ => simp [hs, hf]
  | connected _ _ _ => rfl
  | noClose => exact absurd hnew nothing
  | noSend => exact absurd hnew nothing

theorem attempts_of_frames (hrep : k.Rep) (hw : step K k i = some (k', out))
    (hpre : k.conn (keyOf k.tcp.nic i) = none) (hf : out.frames ≠ []) : Attempts k i := by
  obtain ⟨o, -, hslot⟩ := step_slot hrep hw
  rw [hpre] at hslot
  exact attempts_of_slot (lookup_of_conn_none hrep hpre) hslot (Or.inr hf)

theorem step_new (hrep : k.Rep) (hw : step K k i = some (k', out)) {q : Quad} {c : Connection}
    (hpre : k.conn q = none) (hpost : k'.conn q = some c) :
    q = keyOf k.tcp.nic i ∧ Attempts k i ∧ k.tcp.rteHash.Room q := by
  obtain ⟨o, ht, hslot⟩ := step_slot hrep hw
  have hq : q = keyOf k.tcp.nic i := by
    by_contra hne
    cases hpre.symm.trans ((ht.others q hne).symm.trans hpost)
  subst hq
  have ho : o = some c := ht.at_key.symm.trans hpost
  have hatt : Attempts k i := by
    rw [hpre] at hslot
    exact attempts_of_slot (lookup_of_conn_none hrep hpre) hslot (Or.inl (by simp [ho]))
  refine ⟨rfl, hatt, ?_⟩
  by_contra hroom
  obtain ⟨_, d, _, n, _, -, -, -, rfl, -⟩ := step_attempt hatt hw
  have hno : (k.inserted (keyOf k.tcp.nic i) (d.sent K n)).conn (keyOf k.tcp.nic i) = none :=
    conn_none (by rw [inserted_full hroom]; exact hatt.1)
  cases hno.symm.trans hpost

variable {e : (machine K).Event}

theorem event_made (h : Attempts e.pre e.input) (hroom : e.pre.tcp.rteHash.Room (eventKey e)) :
    ∃ g c data n, Made e.pre.tcp.nic g e.input c data n ∧
      e.post.conn (eventKey e) = some (c.sent K n) := by
  obtain ⟨g, c, data, n, _, -, hm, -, hpost, -⟩ := step_attempt h e.fired
  refine ⟨g, c, data, n, hm, ?_⟩
  rw [hpost]
  exact inserted_conn hroom _

theorem event_new (hrep : e.pre.Rep) {q : Quad} {c : Connection} (hpre : e.pre.conn q = none)
    (hpost : e.post.conn q = some c) :
    q = eventKey e ∧ Attempts e.pre e.input ∧ e.pre.tcp.rteHash.Room q ∧
      ∃ g d data n, Made e.pre.tcp.nic g e.input d data n ∧ c = d.sent K n := by
  obtain ⟨rfl, hatt, hroom⟩ := step_new hrep e.fired hpre hpost
  obtain ⟨g, d, data, n, hm, hd⟩ := event_made hatt hroom
  exact ⟨rfl, hatt, hroom, g, d, data, n, hm, Option.some.inj (hpost.symm.trans hd)⟩

/-! ## What a failure leaves behind -/

/-- Without an object or a place the step returns with the table and the objects as
they were and sends nothing; and what has been sent for a quad is in the table. -/
structure LeavesNoTrace (K : RteCksum) (k : Core) (i : Input) : Prop where
  failed : i.env.object = none ∨ ¬k.tcp.rteHash.Room (keyOf k.tcp.nic i) →
    ∃ k' out, step K k i = some (k', out) ∧ out.frames = [] ∧
      k'.tcp.rteHash = k.tcp.rteHash ∧ ∀ p, p ∈ k'.heap.objs ↔ p ∈ k.heap.objs
  sent : ∀ k' out, step K k i = some (k', out) → out.frames ≠ [] →
    ∃ p, k'.tcp.rteHash.lookup (keyOf k.tcp.nic i) = some p

/-- From any state: a step that makes a connection leaves no trace of a failure
exactly if there is none. -/
theorem leavesNoTrace_iff (h : Attempts k i) : LeavesNoTrace K k i ↔
    i.env.object ≠ none ∧ k.tcp.rteHash.Room (keyOf k.tcp.nic i) := by
  constructor
  · intro hclean
    by_contra hfail
    have hfail : i.env.object = none ∨ ¬k.tcp.rteHash.Room (keyOf k.tcp.nic i) := by
      by_cases hg : i.env.object = none
      · exact Or.inl hg
      · exact Or.inr fun hroom => hfail ⟨hg, hroom⟩
    obtain ⟨k', out, hw, -, -, hobjs⟩ := hclean.failed hfail
    obtain ⟨_, _, _, _, _, -, -, -, rfl, -⟩ := step_attempt h hw
    -- the object is allocated before anything can fail, and stays
    exact k.heap.next_notMem ((hobjs _).mp (Store.Heap.mem_alloc.mpr (Or.inl rfl)))
  · intro ⟨hg, hroom⟩
    refine ⟨fun hfail => ?_, fun k' out hw _ => ?_⟩
    · exact absurd hroom (hfail.resolve_left hg)
    · obtain ⟨_, _, _, _, _, -, -, -, rfl, -⟩ := step_attempt h hw
      exact ⟨_, Store.Table.lookup_add hroom⟩

end

/-! ## On the host -/

def synFrom (port : Nat) : Input :=
  let p := peerPacket rteTcpSynFlag 0 0 []
  ⟨.rx { p with tcp.srcPort := BitVec.ofNat 16 port }, calm⟩

def flood : List Input := (List.range 128).map synFrom

theorem leavesNoTrace_iff_syn : Attempts host (synFrom 0) ∧ (LeavesNoTrace rfcCksum host (synFrom 0) ↔
    (synFrom 0).env.object ≠ none ∧ host.tcp.rteHash.Room (keyOf host.tcp.nic (synFrom 0))) :=
  have h : Attempts host (synFrom 0) := by decide +kernel
  ⟨h, leavesNoTrace_iff h⟩

/-- The 129th SYN is answered, and the answer is all that is known of it. -/
theorem not_leavesNoTrace : ¬∀ (tr : List (machine rfcCksum).Event) (k : Core), Machine.Run tr k →
    ∀ i, Attempts k i → LeavesNoTrace rfcCksum k i := by
  intro h
  let i := synFrom 128
  obtain ⟨tr, k, hr, hQ⟩ := Machine.exists_run (host_init rfcCksum) flood
    (Q := fun r => Attempts r.2 i ∧ (step rfcCksum r.2 i).any (fun w => w.2.frames.length = 1 ∧
      w.1.tcp.rteHash.lookup (keyOf r.2.tcp.nic i) = none) = true) (by decide +kernel)
  obtain ⟨hatt, htest⟩ := of_decide_eq_true hQ
  obtain ⟨⟨k', out⟩, hw, hQ⟩ := (Option.any_eq_true ..).mp htest
  obtain ⟨hlen, hno⟩ := of_decide_eq_true hQ
  have hsent : out.frames ≠ [] := fun hn => by rw [hn] at hlen; cases hlen
  obtain ⟨p, hp⟩ := (h tr k hr i hatt).sent k' out hw hsent
  cases hno.symm.trans hp

end TcpDpdk

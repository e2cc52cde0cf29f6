import TcpDpdk.Commands
import TcpDpdk.Handshake

/-!
# Opening beside the receive loop

`active_connect` is run by the control thread: it looks the quad up, allocates, sends
the SYN and puts the connection into the table, and the core receives between any two
of these. `connect_at_once` says that undisturbed they are the command as one step,
`answered_iff` what has to come before the answer to the SYN.
-/

namespace TcpDpdk

/-- Where the control thread is in `active_connect`. -/
inductive Connecting where
  | idle
  | missing (q : Quad)
  | allocated (q : Quad) (p : Nat)
  | transmitted (q : Quad) (p : Nat)
  deriving DecidableEq

structure Opening where
  core : Core
  control : Connecting

inductive OpenTurn where
  | dispatch (p : Packet) (env : Env)
  | connect (dip : BitVec 32) (dport sport : BitVec 16) (pad : BitVec 32)
  /-- the next step of the control thread -/
  | next (env : Env)

def nextStep (K : RteCksum) (env : Env) (s : Opening) : Option (Opening × Out) :=
  match s.control with
  | .idle => some (s, {})
  | .missing q =>
    match env.object with
    | none => none
    | some g => some (⟨{ s.core with heap := s.core.heap.alloc (connectConnection g q) },
        .allocated q s.core.heap.next⟩, {})
  | .allocated q p =>
    match s.core.heap.read p with
    | none => none
    | some c => (tcpTxPackets K env s.core.tcp c Mem.null 0).map fun (c, frames) =>
      (⟨{ s.core with heap := s.core.heap.write p c }, .transmitted q p⟩, { frames })
  | .transmitted q p =>
    some (⟨{ s.core with tcp.rteHash := s.core.tcp.rteHash.add q p }, .idle⟩, {})

def openStep (K : RteCksum) (s : Opening) : OpenTurn → Option (Opening × Out)
  | .dispatch p env => (tcpRxPacket K env s.core p).map fun (k, out) => ({ s with core := k }, out)
  | .connect dip dport sport pad =>
    match s.control with
    | .idle =>
      let q := connectQuad s.core.tcp.nic pad dip dport sport
      match s.core.tcp.rteHash.lookup q with
      | none => some ({ s with control := .missing q }, {})
      | some _ => some (s, {})
    | _ => some (s, {}) -- still at the command before
  | .next env => nextStep K env s

def openMachine (K : RteCksum) : Machine Opening OpenTurn Out where
  init s := s.control = .idle ∧ ∃ nic last, s.core = initializeTcp nic last
  step := openStep K

def runTurns (K : RteCksum) : Opening → List OpenTurn → Option (Opening × List Frame)
  | s, [] => some (s, [])
  | s, t :: ts => (openStep K s t).bind fun x =>
    (runTurns K x.1 ts).map fun y => (y.1, x.2.frames ++ y.2)

section
variable {K : RteCksum} {s : Opening}

theorem connect_at_once (env : Env) (hs : s.control = .idle) (dip : BitVec 32)
    (dport sport : BitVec 16) :
    runTurns K s [.connect dip dport sport env.pad, .next env, .next env, .next env] =
      (activeConnect K env s.core dip dport sport).map fun x => (⟨x.1, .idle⟩, x.2.frames) := by
  obtain ⟨k, control⟩ := s
  dsimp only at hs
  subst hs
  cases hl : k.tcp.rteHash.lookup (connectQuad k.tcp.nic env.pad dip dport sport) with
  | some p => simp [runTurns, openStep, nextStep, activeConnect, hl]
  | none =>
    cases hg : env.object with
    | none => simp [runTurns, openStep, nextStep, activeConnect, hl, hg]
    | some g =>
      simp only [runTurns, openStep, nextStep, activeConnect, hl, hg, Option.bind_some,
        Store.Heap.read_alloc, Store.Heap.write_alloc]
      cases tcpTxPackets K env k.tcp _ Mem.null 0 with
      | none => rfl
      | some x => simp

/-! ## The turns -/

def Connecting.quad : Connecting → Option Quad
  | .idle => none
  | .missing q | .allocated q _ | .transmitted q _ => some q

def Connecting.pointer : Connecting → Option Nat
  | .idle | .missing _ => none
  | .allocated _ p | .transmitted _ p => some p

inductive OpenTurned (K : RteCksum) (s : Opening) : OpenTurn → Opening → Prop
  | dispatched {p env k out} : tcpRxPacket K env s.core p = some (k, out) →
      OpenTurned K s (.dispatch p env) { s with core := k }
  | waited {i} : (∀ p env, i ≠ .dispatch p env) → (∀ env, i = .next env → s.control = .idle) →
      OpenTurned K s i s
  | looked {dip dport sport pad q} : s.control = .idle → s.core.tcp.rteHash.lookup q = none →
      OpenTurned K s (.connect dip dport sport pad) { s with control := .missing q }
  | allocated {env q} (g : Connection) : s.control = .missing q →
      OpenTurned K s (.next env)
        ⟨{ s.core with heap := s.core.heap.alloc (connectConnection g q) },
          .allocated q s.core.heap.next⟩
  | transmitted {env q p} (c : Connection) : s.control = .allocated q p →
      s.core.heap.read p = some c →
      OpenTurned K s (.next env)
        ⟨{ s.core with heap := s.core.heap.write p (c.sent K 0) }, .transmitted q p⟩
  | inserted {env q p} : s.control = .transmitted q p →
      OpenTurned K s (.next env)
        ⟨{ s.core with tcp.rteHash := s.core.tcp.rteHash.add q p }, .idle⟩

theorem openStep_turned {s' : Opening} {i : OpenTurn} {out : Out}
    (h : openStep K s i = some (s', out)) : OpenTurned K s i s' := by
  cases i with
  | dispatch p env =>
    obtain ⟨⟨k, out⟩, hk, he⟩ := Option.map_eq_some_iff.mp h
    cases he
    exact .dispatched hk
  | connect dip dport sport pad =>
    simp only [openStep] at h
    split at h
    · rename_i hs
      split at h
      · rename_i hl
        cases h
        exact .looked hs hl
      · cases h
        exact .waited (fun _ _ h => nomatch h) fun _ h => nomatch h
    · cases h
      exact .waited (fun _ _ h => nomatch h) fun _ h => nomatch h
  | next env =>
    simp only [openStep, nextStep] at h
    split at h
    · rename_i hs
      cases h
      exact .waited (fun _ _ h => nomatch h) fun _ _ => hs
    · rename_i hs
      split at h
      · cases h
      · rename_i g _
        cases h
        exact .allocated g hs
    · rename_i hs
      split at h
      · cases h
      · rename_i c hr
        obtain ⟨⟨d, frames⟩, hx, he⟩ := Option.map_eq_some_iff.mp h
        obtain ⟨rfl, -⟩ := tcpTxPackets_some hx
        cases he
        exact .transmitted c hs hr
    · rename_i hs
      cases h
      exact .inserted hs

end

/-! ## Objects the core does not find -/

section
variable {K : RteCksum} {env : Env} {k k' : Core} {pkt : Packet} {out : Out} {p : Nat}

theorem rx_step (h : tcpRxPacket K env k pkt = some (k', out)) :
    rxSegment k.tcp.nic env.pad pkt = none ∧ k' = k ∨
      ∃ s, rxSegment k.tcp.nic env.pad pkt = some s ∧ RxStep K env k s k' out := by
  unfold tcpRxPacket at h
  split at h
  · rename_i hs
    cases h
    exact Or.inl ⟨hs, rfl⟩
  · rename_i s hs
    exact Or.inr ⟨s, hs, rxDispatch_some h⟩

theorem rx_next_le (h : tcpRxPacket K env k pkt = some (k', out)) : k.heap.next ≤ k'.heap.next := by
  rcases rx_step h with ⟨-, rfl⟩ | ⟨s, -, hstep⟩
  · exact Nat.le_refl _
  · cases hstep with
    | ignored _ _ => exact Nat.le_refl _
    | opened _ _ => exact Nat.le_succ _
    | freed _ _ _ _ => exact Nat.le_refl _
    | handled _ _ _ _ => exact Nat.le_of_eq Store.Heap.next_write.symm

theorem rx_read_unlisted (h : tcpRxPacket K env k pkt = some (k', out)) (hp : p < k.heap.next)
    (hun : ∀ x, k.tcp.rteHash.lookup x ≠ some p) : k'.heap.read p = k.heap.read p := by
  rcases rx_step h with ⟨-, rfl⟩ | ⟨s, -, hstep⟩
  · rfl
  · have ne : ∀ {x}, k.tcp.rteHash.lookup s.q = some x → p ≠ x := by
      intro x hx hpx
      exact hun s.q (hpx ▸ hx)
    cases hstep with
    | ignored _ _ => rfl
    | opened _ _ => exact Store.Heap.read_alloc_ne (Nat.ne_of_lt hp)
    | freed hl _ _ _ => exact Store.Heap.read_free_ne (ne hl)
    | handled hl _ _ _ => exact Store.Heap.read_write_ne (ne hl)

theorem rx_lookup_old (h : tcpRxPacket K env k pkt = some (k', out))
    (hp : p < k.heap.next) {x : Quad} (hx : k'.tcp.rteHash.lookup x = some p) :
    k.tcp.rteHash.lookup x = some p := by
  rcases rx_step h with ⟨-, rfl⟩ | ⟨s, -, hstep⟩
  · exact hx
  · have switched : ∀ {c r}, rxSwitch K env k.tcp c s = some r → r.tcp.rteHash.lookup x = some p →
        k.tcp.rteHash.lookup x = some p := by
      intro c r hsw hx
      rw [rxSwitch_table hsw] at hx
      split at hx
      · exact (Store.Table.lookup_of_del hx).2
      · exact hx
    cases hstep with
    | ignored _ _ => exact hx
    | opened _ _ =>
      rcases Store.Table.lookup_of_add hx with hx | ⟨-, rfl⟩
      · exact hx
      · exact absurd hp (Nat.lt_irrefl _)
    | freed _ _ hsw _ => exact switched hsw (Store.Table.lookup_of_del hx).2
    | handled _ _ hsw _ => exact switched hsw hx

end

/-! ## The connection of the control thread -/

structure Core.Keeps (k : Core) (p : Nat) (P : Connection → Prop) : Prop where
  object : ∃ c, k.heap.read p = some c ∧ P c
  unlisted : ∀ x, k.tcp.rteHash.lookup x ≠ some p

def Connection.Asks (c : Connection) : Prop := c.tcpState = .synSent ∧ c.Quiet ∧ c.SynOut

def Opening.Pending (s : Opening) : Prop :=
  match s.control with
  | .allocated q p => s.core.Keeps p fun c => ∃ g, c = connectConnection g q
  | .transmitted q p => s.core.Keeps p fun c => c.q = q ∧ c.Asks
  | _ => True

section
variable {K : RteCksum} {k k' : Core} {p : Nat} {q : Quad} {s : Opening}

theorem Opening.Pending.allocated (h : s.Pending) (hs : s.control = .allocated q p) :
    s.core.Keeps p fun c => ∃ g, c = connectConnection g q := by
  unfold Opening.Pending at h
  rw [hs] at h
  exact h

theorem Opening.Pending.transmitted (h : s.Pending) (hs : s.control = .transmitted q p) :
    s.core.Keeps p fun c => c.q = q ∧ c.Asks := by
  unfold Opening.Pending at h
  rw [hs] at h
  exact h

theorem connectConnection_asks (K : RteCksum) (g : Connection) (q : Quad) :
    ((connectConnection g q).sent K 0).Asks :=
  ⟨sent_tcpState .., sent_quiet .., fun _ =>
    ⟨sent_una .., sent_nxt_flags (c := connectConnection g q) (f := rteTcpSynFlag) rfl (by decide)⟩⟩

theorem Core.Keeps.rx {env : Env} {pkt : Packet} {out : Out} {P : Connection → Prop}
    (hk : k.Keeps p P) (h : tcpRxPacket K env k pkt = some (k', out)) : k'.Keeps p P := by
  obtain ⟨c, hr, hP⟩ := hk.object
  have hlt := Store.Heap.lt_of_read hr
  refine ⟨⟨c, (rx_read_unlisted h hlt hk.unlisted).trans hr, hP⟩, fun x hx => ?_⟩
  exact hk.unlisted x (rx_lookup_old h hlt hx)

theorem insert_rep (hrep : k.Rep) {c : Connection} (hr : k.heap.read p = some c) (hq : c.q = q) :
    Core.Rep { k with tcp.rteHash := k.tcp.rteHash.add q p } := by
  intro x px hx
  rcases Store.Table.lookup_of_add hx with hx | ⟨rfl, rfl⟩
  · exact hrep x px hx
  · exact ⟨c, hr, hq⟩

theorem alloc_rep (hrep : k.Rep) (c : Connection) :
    Core.Rep { k with heap := k.heap.alloc c } := by
  intro x px hx
  obtain ⟨d, hr, hd⟩ := hrep x px hx
  exact ⟨d, Store.Heap.read_alloc_of_read hr, hd⟩

theorem turn_pending {s' : Opening} {i : OpenTurn} (h : OpenTurned K s i s')
    (hrep : s.core.Rep) (hpend : s.Pending) : s'.core.Rep ∧ s'.Pending := by
  cases h with
  | @dispatched p env k out hk =>
    refine ⟨step_rep (i := ⟨.rx p, env⟩) hrep hk, ?_⟩
    unfold Opening.Pending
    dsimp only
    cases hc : s.control with
    | idle => trivial
    | missing q => trivial
    | allocated q x => exact (hpend.allocated hc).rx hk
    | transmitted q x => exact (hpend.transmitted hc).rx hk
  | waited _ _ => exact ⟨hrep, hpend⟩
  | looked _ _ => exact ⟨hrep, trivial⟩
  | @allocated env q g hs =>
    refine ⟨alloc_rep hrep _, ⟨_, Store.Heap.read_alloc .., g, rfl⟩, ?_⟩
    intro x hx
    obtain ⟨c, hr, -⟩ := hrep x _ hx
    exact Nat.lt_irrefl _ (Store.Heap.lt_of_read hr)
  | @transmitted env q p c hs hr =>
    have hkeeps := hpend.allocated hs
    obtain ⟨d, hrd, g, rfl⟩ := hkeeps.object
    cases hr.symm.trans hrd
    refine ⟨write_rep hrep hr (sent_q ..), ⟨_, Store.Heap.read_write hr, ?_, ?_⟩, hkeeps.unlisted⟩
    · exact sent_q ..
    · exact connectConnection_asks K g q
  | @inserted env q p hs =>
    obtain ⟨c, hr, hq, -⟩ := (hpend.transmitted hs).object
    exact ⟨insert_rep hrep hr hq, trivial⟩

theorem run_pending {tr : List (openMachine K).Event} {s : Opening} (h : Machine.Run tr s) :
    s.core.Rep ∧ s.Pending := by
  refine Machine.Run.inv (P := fun s : Opening => s.core.Rep ∧ s.Pending) ?_ (fun e he => ?_) h
  · intro s ⟨hs, nic, last, hk⟩
    refine ⟨hk ▸ rep_init nic last, ?_⟩
    unfold Opening.Pending
    rw [hs]
    trivial
  · exact turn_pending (openStep_turned e.fired) he.1 he.2

end

/-! ## The SYN and its answer -/

def OpenTurn.seg (nic : Nic) : OpenTurn → Option Seg
  | .dispatch p env => rxSegment nic env.pad p
  | _ => none

def OpenTurn.isNext : OpenTurn → Bool
  | .next _ => true
  | _ => false

section
variable {K : RteCksum}

def segment (e : (openMachine K).Event) : Option Seg := e.input.seg e.pre.core.tcp.nic

def EmitsSyn (q : Quad) (p : Nat) (e : (openMachine K).Event) : Prop :=
  e.pre.control = .allocated q p ∧ e.input.isNext = true ∧ e.out.frames ≠ []

/-- A SYN|ACK that comes from where the SYN for `q` went, and acknowledges it. -/
def SynAnswer (q : Quad) (s : Seg) : Prop :=
  { s.q with pad := q.pad } = q ∧ s.tcpHdr.tcpFlags = rteTcpSynFlag ||| rteTcpAckFlag ∧
    s.ackn = iss + 1

def Quietly (q : Quad) (e : (openMachine K).Event) : Prop :=
  (∀ s, segment e = some s → ¬SynAnswer q s) ∧ ∀ p, ¬EmitsSyn q p e

/-- The first answer to a SYN goes to `handle_tcp_syn_sent` with the connection of
the SYN. -/
def AnswerFinds (tr : List (openMachine K).Event) (e : (openMachine K).Event) : Prop :=
  ∀ q p xs s, Machine.Since (EmitsSyn q p) (Quietly q) tr xs → segment e = some s → SynAnswer q s →
    ∃ c, e.pre.core.tcp.rteHash.lookup s.q = some p ∧ e.pre.core.heap.read p = some c ∧
      c.tcpState = .synSent

def PutsInTable (q : Quad) (p : Nat) (e : (openMachine K).Event) : Prop :=
  e.pre.control = .transmitted q p ∧ e.input.isNext = true ∧ e.pre.core.tcp.rteHash.Room q

def AcksSyn (q : Quad) (s : Seg) : Prop := s.q = q ∧ (s.ackn = iss ∨ s.ackn = iss + 1)

def Acknowledges (q : Quad) (e : (openMachine K).Event) : Prop :=
  ∃ s, segment e = some s ∧ AcksSyn q s

def Listed (q : Quad) (p : Nat) (xs : List (openMachine K).Event) : Prop :=
  ∃ ys, Machine.Since (PutsInTable q p) (fun x => ¬Acknowledges q x) xs ys

/-- The first answer to a SYN comes after the connection was put into the table, and
nothing acknowledged the SYN in between. It has the gaps of the key. -/
def AnswerInTime (tr : List (openMachine K).Event) (e : (openMachine K).Event) : Prop :=
  ∀ q p xs s, Machine.Since (EmitsSyn q p) (Quietly q) tr xs → segment e = some s → SynAnswer q s →
    s.q = q ∧ Listed q p xs

theorem listed_snoc {q : Quad} {p : Nat} {xs : List (openMachine K).Event}
    {e : (openMachine K).Event} :
    Listed q p (xs ++ [e]) ↔ PutsInTable q p e ∨ Listed q p xs ∧ ¬Acknowledges q e := by
  unfold Listed
  simp only [Machine.since_snoc]
  constructor
  · intro ⟨ys, h⟩
    rcases h with ⟨-, h⟩ | ⟨zs, -, hs, ha⟩
    · exact Or.inl h
    · exact Or.inr ⟨⟨zs, hs⟩, ha⟩
  · intro h
    rcases h with h | ⟨⟨zs, hs⟩, ha⟩
    · exact ⟨[], Or.inl ⟨rfl, h⟩⟩
    · exact ⟨zs ++ [e], Or.inr ⟨zs, rfl, hs, ha⟩⟩

theorem not_listed_nil {q : Quad} {p : Nat} : ¬Listed (K := K) q p [] := by
  intro ⟨ys, ta, f, h, _⟩
  cases ta <;> cases h

/-- Where the connection of a SYN can be; `l` says that it is in the table and no
answer has come. -/
inductive Stage (q : Quad) (p : Nat) (l : Prop) (s : Opening) : Prop
  | waiting : ¬l → s.control = .transmitted q p → Stage q p l s
  | listed (c : Connection) : l → s.control.quad ≠ some q → s.control.pointer ≠ some p →
      s.core.tcp.rteHash.lookup q = some p → s.core.heap.read p = some c → c.Asks → Stage q p l s
  | lost : ¬l → s.control.pointer ≠ some p →
      (∀ c, s.core.tcp.rteHash.lookup q = some p → s.core.heap.read p = some c →
        c.tcpState ≠ .synSent) → Stage q p l s

structure Followed (q : Quad) (p : Nat) (l : Prop) (s : Opening) : Prop where
  old : p < s.core.heap.next
  only : ∀ x, s.core.tcp.rteHash.lookup x = some p → x = q
  stage : Stage q p l s

end

section
variable {K : RteCksum} {env : Env} {k k' : Core} {pkt : Packet} {out : Out}

theorem rx_conn (hrep : k.Rep) (h : tcpRxPacket K env k pkt = some (k', out)) (q : Quad) :
    (∀ s, rxSegment k.tcp.nic env.pad pkt = some s → s.q ≠ q) ∧ k'.conn q = k.conn q ∨
      ∃ s, rxSegment k.tcp.nic env.pad pkt = some s ∧ s.q = q ∧
        Slot K env k.tcp (.rx pkt) (k.conn q) (k'.conn q) out := by
  obtain ⟨o, ht, hslot⟩ := step_slot (i := ⟨.rx pkt, env⟩) hrep h
  cases hs : rxSegment k.tcp.nic env.pad pkt with
  | none =>
    unfold tcpRxPacket at h
    rw [hs] at h
    cases h
    exact Or.inl ⟨(fun _ hs => nomatch hs), rfl⟩
  | some s =>
    have hkey : keyOf k.tcp.nic ⟨.rx pkt, env⟩ = s.q := by
      obtain ⟨-, rfl⟩ := rxSegment_some hs
      rfl
    rw [hkey] at ht hslot
    by_cases hq : s.q = q
    · subst hq
      exact Or.inr ⟨s, rfl, rfl, ht.at_key ▸ hslot⟩
    · refine Or.inl ⟨fun s' hs' => ?_, ht.others q (Ne.symm hq)⟩
      cases hs'
      exact hq

theorem asks_rx {t : Tcp} {c : Connection} {o : Option Connection} {s : Seg} (hc : c.Asks)
    (hs : rxSegment t.nic env.pad pkt = some s) (h : Slot K env t (.rx pkt) (some c) o out) :
    ∃ d, o = some d ∧ (AcksSyn s.q s → d.tcpState ≠ .synSent) ∧ (¬AcksSyn s.q s → d.Asks) := by
  obtain ⟨hst, hq, hsyn⟩ := hc
  have hack := ackCheck_synOut hsyn (Or.inl hst) s.ackn
  have hkeeps := slot_synOut h (by
    intro d hd
    cases hd
    exact ⟨hq, hsyn⟩)
  cases h with
  | dropped hn => cases hn.symm.trans hs
  | handled hs' hrx =>
    cases hs'.symm.trans hs
    obtain ⟨d, frames, hd, rfl, -⟩ := hrx.of_synSent hst
    refine ⟨_, rfl, fun ha => ?_, fun ha => ?_⟩
    · rcases hd with ⟨-, rfl⟩ | ⟨hf, -⟩
      · rw [sent_tcpState]
        exact fun he => nomatch he
      · cases (hack.mpr ha.2).symm.trans hf
    · rcases hd with ⟨ht, -⟩ | ⟨-, rfl⟩
      · exact absurd ⟨rfl, hack.mp ht⟩ ha
      · exact ⟨(sent_tcpState ..).trans hst, hkeeps _ rfl⟩

theorem rx_not_synSent (hrep : k.Rep) (h : tcpRxPacket K env k pkt = some (k', out)) {q : Quad}
    (hk : ∀ c, k.conn q = some c → c.tcpState ≠ .synSent) {d : Connection}
    (hd : k'.conn q = some d) : d.tcpState ≠ .synSent := by
  rcases rx_conn hrep h q with ⟨-, he⟩ | ⟨s, -, -, hslot⟩
  · exact hk d (he.symm.trans hd)
  · intro hst
    have hm := slot_moves hslot hd
    rw [hst] at hm
    generalize k.conn q = o at hm hk
    generalize hop : Op.rx pkt = op at hm
    generalize hst' : TcpState.synSent = st at hm
    cases hm with
    | stays => exact hk _ rfl hst'.symm
    | connected => cases hop
    | listened => cases hst'
    | synAcked _ _ _ => cases hst'
    | finReceived _ _ _ => cases hst'
    | closed => cases hop

theorem rx_asks (hrep : k.Rep) (h : tcpRxPacket K env k pkt = some (k', out)) {q : Quad} {p : Nat}
    {c : Connection} (hl : k.tcp.rteHash.lookup q = some p) (hr : k.heap.read p = some c)
    (hc : c.Asks) :
    k'.tcp.rteHash.lookup q = some p ∧ ∃ d, k'.heap.read p = some d ∧
      ((∃ s, rxSegment k.tcp.nic env.pad pkt = some s ∧ AcksSyn q s) → d.tcpState ≠ .synSent) ∧
      ((¬∃ s, rxSegment k.tcp.nic env.pad pkt = some s ∧ AcksSyn q s) → d.Asks) := by
  have hconn := conn_of_lookup hl hr
  have hstay : k'.tcp.rteHash.lookup q = some p := by
    refine (rx_keeps hrep h hl).mpr ?_
    intro ⟨s, d, _, _, hd, hlv⟩
    cases hconn.symm.trans hd
    unfold Connection.leaves at hlv
    rw [hc.1] at hlv
    cases hlv
  have hread : k'.conn q = k'.heap.read p := by unfold Core.conn; rw [hstay]; rfl
  refine ⟨hstay, ?_⟩
  rcases rx_conn hrep h q with ⟨hno, he⟩ | ⟨s, hs, rfl, hslot⟩
  · refine ⟨c, (hread.symm.trans he).trans hconn, ?_, fun _ => hc⟩
    intro ⟨s, hs, hq, _⟩
    exact absurd hq (hno s hs)
  · rw [hconn] at hslot
    obtain ⟨d, hd, hacks, hnot⟩ := asks_rx hc hs hslot
    refine ⟨d, hread.symm.trans hd, ?_, fun hno => hnot fun ha => hno ⟨s, hs, ha⟩⟩
    intro ⟨s', hs', ha⟩
    cases hs.symm.trans hs'
    exact hacks ha

end

/-! ## Following the connection of a SYN -/

section
variable {K : RteCksum} {e : (openMachine K).Event} {q : Quad} {p : Nat} {l : Prop}

theorem not_acknowledges (h : ∀ p env, e.input ≠ .dispatch p env) : ¬Acknowledges q e := by
  intro ⟨s, hs, _⟩
  unfold segment OpenTurn.seg at hs
  split at hs
  · rename_i p env hi
    exact h p env hi
  · cases hs

theorem followed_rx {k : Core} {pkt : Packet} {env : Env} {out : Out} (hrep : e.pre.core.Rep)
    (hi : e.input = .dispatch pkt env) (hk : tcpRxPacket K env e.pre.core pkt = some (k, out))
    (hf : Followed q p l e.pre) :
    Followed q p (PutsInTable q p e ∨ l ∧ ¬Acknowledges q e) { e.pre with core := k } := by
  have hput : ¬PutsInTable q p e := by
    intro ⟨_, h, _⟩
    rw [hi] at h
    cases h
  have hseg : segment e = rxSegment e.pre.core.tcp.nic env.pad pkt := by
    unfold segment
    rw [hi]
    rfl
  refine ⟨Nat.lt_of_lt_of_le hf.old (rx_next_le hk),
    fun x hx => hf.only x (rx_lookup_old hk hf.old hx), ?_⟩
  cases hf.stage with
  | waiting hl hc => exact .waiting (fun h => h.elim hput fun h => hl h.1) hc
  | listed c hl hq hp hlk hr hc =>
    obtain ⟨hlk', d, hrd, hacks, hnot⟩ := rx_asks hrep hk hlk hr hc
    unfold Acknowledges
    rw [hseg]
    by_cases ha : ∃ s, rxSegment e.pre.core.tcp.nic env.pad pkt = some s ∧ AcksSyn q s
    · refine .lost (fun h => h.elim hput fun h => h.2 ha) hp ?_
      intro d' _ hrd'
      cases hrd.symm.trans hrd'
      exact hacks ha
    · exact .listed d (Or.inr ⟨hl, ha⟩) hq hp hlk' hrd (hnot ha)
  | lost hl hp hno =>
    refine .lost (fun h => h.elim hput fun h => hl h.1) hp ?_
    intro d hlk hrd
    refine rx_not_synSent hrep hk (q := q) ?_ (conn_of_lookup hlk hrd)
    intro c hc
    have hlk₀ := rx_lookup_old hk hf.old hlk
    unfold Core.conn at hc
    rw [hlk₀] at hc
    exact hno c hlk₀ hc

theorem Followed.beside {s' : Opening} (hf : Followed q p l e.pre)
    (hput : ¬PutsInTable q p e) (hi : ∀ p env, e.input ≠ .dispatch p env)
    (htab : s'.core.tcp = e.pre.core.tcp) (hnext : e.pre.core.heap.next ≤ s'.core.heap.next)
    (hread : e.pre.control.pointer ≠ some p → s'.core.heap.read p = e.pre.core.heap.read p)
    (hwait : e.pre.control = .transmitted q p → s'.control = .transmitted q p)
    (hquad : e.pre.control.quad ≠ some q → e.pre.core.tcp.rteHash.lookup q = some p →
      s'.control.quad ≠ some q)
    (hptr : e.pre.control.pointer ≠ some p → s'.control.pointer ≠ some p) :
    Followed q p (PutsInTable q p e ∨ l ∧ ¬Acknowledges q e) s' := by
  refine ⟨Nat.lt_of_lt_of_le hf.old hnext, ?_, ?_⟩
  · rw [htab]
    exact hf.only
  cases hf.stage with
  | waiting hl hc => exact .waiting (fun h => h.elim hput fun h => hl h.1) (hwait hc)
  | listed c hl hq hp hlk hr hc =>
    refine .listed c (Or.inr ⟨hl, not_acknowledges hi⟩) (hquad hq hlk) (hptr hp) ?_ ?_ hc
    · rw [htab]
      exact hlk
    · exact (hread hp).trans hr
  | lost hl hp hno =>
    refine .lost (fun h => h.elim hput fun h => hl h.1) (hptr hp) ?_
    rw [htab, hread hp]
    exact hno

theorem followed_inserted {x : Quad} {y : Nat} (hpend : e.pre.Pending)
    (hs : e.pre.control = .transmitted x y) (hi : e.input.isNext = true)
    (hf : Followed q p l e.pre) :
    Followed q p (PutsInTable q p e ∨ l ∧ ¬Acknowledges q e)
      ⟨{ e.pre.core with tcp.rteHash := e.pre.core.tcp.rteHash.add x y }, .idle⟩ := by
  have hack : ¬Acknowledges q e := not_acknowledges fun _ _ h => by rw [h] at hi; cases hi
  -- another pointer put into the table leaves `p` where it is
  have another : e.pre.control.pointer ≠ some p → ¬PutsInTable q p e ∧
      ∀ z, (e.pre.core.tcp.rteHash.add x y).lookup z = some p →
        e.pre.core.tcp.rteHash.lookup z = some p := by
    intro hp
    refine ⟨fun h => hp (by rw [h.1]; rfl), fun z hz => ?_⟩
    rcases Store.Table.lookup_of_add hz with h | ⟨-, rfl⟩
    · exact h
    · exact absurd (by rw [hs]; rfl) hp
  cases hf.stage with
  | waiting hl hc =>
    cases hs.symm.trans hc
    have hkeeps := hpend.transmitted hs
    obtain ⟨c, hr, hcq, hasks⟩ := hkeeps.object
    refine ⟨hf.old, fun z hz => (Store.Table.lookup_of_add hz).elim (hf.only z) And.left, ?_⟩
    by_cases hroom : e.pre.core.tcp.rteHash.Room q
    · exact .listed c (Or.inl ⟨hs, hi, hroom⟩) (fun h => nomatch h) (fun h => nomatch h)
        (Store.Table.lookup_add hroom) hr hasks
    · refine .lost (fun h => h.elim (fun h => hroom h.2.2) fun h => hl h.1) (fun h => nomatch h) ?_
      intro d hlk
      dsimp only at hlk
      rw [Store.Table.add_full hroom] at hlk
      exact absurd hlk (hkeeps.unlisted q)
  | listed c hl hq hp hlk hr hc =>
    refine ⟨hf.old, fun z hz => hf.only z ((another hp).2 z hz), ?_⟩
    have hne : q ≠ x := fun h => hq (by rw [hs, h]; rfl)
    exact .listed c (Or.inr ⟨hl, hack⟩) (fun h => nomatch h) (fun h => nomatch h)
      ((Store.Table.lookup_add_ne hne).trans hlk) hr hc
  | lost hl hp hno =>
    refine ⟨hf.old, fun z hz => hf.only z ((another hp).2 z hz), ?_⟩
    exact .lost (fun h => h.elim (another hp).1 fun h => hl h.1) (fun h => nomatch h)
      fun c hlk => hno c ((another hp).2 q hlk)

theorem followed_event (hrep : e.pre.core.Rep) (hpend : e.pre.Pending) (hf : Followed q p l e.pre) :
    Followed q p (PutsInTable q p e ∨ l ∧ ¬Acknowledges q e) e.post := by
  have ht := openStep_turned e.fired
  have hput : ∀ {c : Connecting}, e.pre.control = c → c ≠ .transmitted q p → ¬PutsInTable q p e :=
    fun hs hne h => hne (hs.symm.trans h.1)
  generalize hi : e.input = i at ht
  generalize e.post = s' at ht
  cases ht with
  | dispatched hk => exact followed_rx hrep hi hk hf
  | waited hno hidle =>
    refine hf.beside ?_ (hi ▸ hno) rfl (Nat.le_refl _) (fun _ => rfl) id (fun h _ => h) id
    intro ⟨hc, hn, _⟩
    rw [hi] at hn
    cases i with
    | next env => cases (hidle env rfl).symm.trans hc
    | dispatch pkt env => cases hn
    | connect dip dport sport pad => cases hn
  | @looked dip dport sport pad x hs hl =>
    refine hf.beside (hput hs fun h => nomatch h) (fun _ _ h => nomatch hi.symm.trans h) rfl
      (Nat.le_refl _) (fun _ => rfl) (fun h => nomatch hs.symm.trans h) ?_ (fun _ h => nomatch h)
    intro _ hlk h
    cases h
    cases hl.symm.trans hlk
  | @allocated env x g hs =>
    refine hf.beside (hput hs fun h => nomatch h) (fun _ _ h => nomatch hi.symm.trans h) rfl
      (Nat.le_succ _) (fun _ => Store.Heap.read_alloc_ne (Nat.ne_of_lt hf.old))
      (fun h => nomatch hs.symm.trans h) ?_ ?_
    · intro hq _ h
      cases h
      exact hq (by rw [hs]; rfl)
    · intro _ h
      cases h
      exact absurd hf.old (Nat.lt_irrefl _)
  | @transmitted env x y c hs hr =>
    refine hf.beside (hput hs fun h => nomatch h) (fun _ _ h => nomatch hi.symm.trans h) rfl
      (Nat.le_of_eq Store.Heap.next_write.symm) ?_ (fun h => nomatch hs.symm.trans h) ?_ ?_
    · intro hp
      refine Store.Heap.read_write_ne fun h => hp ?_
      rw [hs, h]
      rfl
    · intro hq _ h
      cases h
      exact hq (by rw [hs]; rfl)
    · intro hp h
      cases h
      exact hp (by rw [hs]; rfl)
  | inserted hs => exact followed_inserted hpend hs (by rw [hi]; rfl) hf

theorem followed_emitted (hpend : e.pre.Pending) (he : EmitsSyn q p e) (hl : ¬l) :
    Followed q p l e.post := by
  obtain ⟨hs, hn, -⟩ := he
  have hkeeps := hpend.allocated hs
  have ht := openStep_turned e.fired
  generalize e.input = i at ht hn
  generalize e.post = s' at ht
  cases ht with
  | dispatched _ => cases hn
  | waited hno hidle =>
    cases i with
    | next env => cases (hidle env rfl).symm.trans hs
    | dispatch pkt env => cases hn
    | connect dip dport sport pad => cases hn
  | looked _ _ => cases hn
  | allocated _ h => cases hs.symm.trans h
  | inserted h => cases hs.symm.trans h
  | transmitted c h hr =>
    cases hs.symm.trans h
    refine ⟨?_, fun x hx => absurd hx (hkeeps.unlisted x), .waiting hl rfl⟩
    dsimp only
    rw [Store.Heap.next_write]
    exact Store.Heap.lt_of_read hr

theorem run_followed {tr xs : List (openMachine K).Event} {s : Opening} (h : Machine.Run tr s)
    (hs : Machine.Since (EmitsSyn q p) (Quietly q) tr xs) : Followed q p (Listed q p xs) s := by
  refine Machine.Run.since (J := fun xs s => Followed q p (Listed q p xs) s) ?_ ?_ h hs
  · intro tr f hr hf
    exact followed_emitted (run_pending hr).2 hf not_listed_nil
  · intro tr xs e hr _ hJ
    rw [listed_snoc]
    exact followed_event (run_pending hr).1 (run_pending hr).2 hJ

theorem Followed.finds_iff {s : Opening} {x : Quad} (hf : Followed q p l s) (hpend : s.Pending) :
    (∃ c, s.core.tcp.rteHash.lookup x = some p ∧ s.core.heap.read p = some c ∧
      c.tcpState = .synSent) ↔ x = q ∧ l := by
  cases hf.stage with
  | waiting hl hc =>
    exact iff_of_false (fun ⟨_, hlk, _⟩ => (hpend.transmitted hc).unlisted x hlk) fun h => hl h.2
  | listed c hl _ _ hlk hr hc =>
    constructor
    · intro ⟨_, hx, _⟩
      exact ⟨hf.only x hx, hl⟩
    · intro ⟨hx, _⟩
      subst hx
      exact ⟨c, hlk, hr, hc.1⟩
  | lost hl _ hno =>
    refine iff_of_false ?_ fun h => hl h.2
    intro ⟨c, hlk, hr, hst⟩
    obtain rfl := hf.only x hlk
    exact hno c hlk hr hst

/-- For every interleaving: the first answer to a SYN finds the connection waiting for
it exactly if `active_connect` has put it into the table before, which is its last
step, and no segment in between was taken for the answer. -/
theorem answered_iff {tr : List (openMachine K).Event} {s : Opening} (h : Machine.Run tr s) :
    Machine.Meets AnswerFinds tr ↔ Machine.Meets AnswerInTime tr := by
  refine Machine.Run.meets_iff (fun tr e hr => ?_) h
  have finds : ∀ {q p xs x}, Machine.Since (EmitsSyn q p) (Quietly q) tr xs →
      ((∃ c, e.pre.core.tcp.rteHash.lookup x = some p ∧ e.pre.core.heap.read p = some c ∧
        c.tcpState = .synSent) ↔ x = q ∧ Listed q p xs) := fun hs =>
    (run_followed hr hs).finds_iff (run_pending hr).2
  constructor
  · intro hfinds q p xs s hs hseg hans
    exact (finds hs).mp (hfinds q p xs s hs hseg hans)
  · intro htime q p xs s hs hseg hans
    exact (finds hs).mpr (htime q p xs s hs hseg hans)

end

/-! ## On the host -/

def opening : Opening := ⟨host, .idle⟩

theorem opening_init (K : RteCksum) : (openMachine K).init opening := ⟨rfl, hostNic, 0, rfl⟩

def connectEmits : List OpenTurn :=
  [.connect peerNic.ip peerPort hostPort 0, .next calm, .next calm]

def peerAnswers : OpenTurn :=
  .dispatch (peerPacket (rteTcpSynFlag ||| rteTcpAckFlag) 0 1 []) calm

theorem answered_iff_connect : ∃ (tr : List (openMachine rfcCksum).Event) (s : Opening),
    Machine.Run tr s ∧ s.core.stateOf peerQuad = some .established ∧
      (Machine.Meets AnswerFinds tr ↔ Machine.Meets AnswerInTime tr) := by
  obtain ⟨tr, s, hr, hst⟩ := Machine.exists_run (opening_init rfcCksum)
    (connectEmits ++ [.next calm, peerAnswers])
    (Q := fun r => r.2.core.stateOf peerQuad = some .established) (by decide +kernel)
  exact ⟨tr, s, hr, of_decide_eq_true hst, answered_iff hr⟩

instance (q : Quad) (s : Seg) : Decidable (SynAnswer q s) := inferInstanceAs (Decidable (_ ∧ _))

/-- The peer answers before the connection is put into the table. -/
theorem not_answered : ¬∀ (tr : List (openMachine rfcCksum).Event) (s : Opening),
    Machine.Run tr s → Machine.Meets AnswerFinds tr := by
  intro h
  obtain ⟨tr, s, hr, hQ⟩ := Machine.exists_run (opening_init rfcCksum) (connectEmits ++ [peerAnswers])
    (Q := fun r => match r.1 with
      | [_, _, f, e] => f.pre.control = .allocated peerQuad 0 ∧ f.input.isNext = true ∧
          f.out.frames.isEmpty = false ∧ (segment e).any (fun s => SynAnswer peerQuad s ∧
            e.pre.core.tcp.rteHash.lookup s.q = none) = true
      | _ => false) (by decide +kernel)
  split at hQ
  · rename_i a b f e htr
    obtain ⟨hc, hn, hf, hans⟩ := of_decide_eq_true hQ
    obtain ⟨x, hseg, hx⟩ := (Option.any_eq_true ..).mp hans
    obtain ⟨hx, hnone⟩ := of_decide_eq_true hx
    have hem : EmitsSyn peerQuad 0 f := ⟨hc, hn, fun h => by rw [h] at hf; cases hf⟩
    obtain ⟨c, hl, -⟩ := h tr s hr [a, b, f] e [] htr peerQuad 0 [] x
      (.start (t := [a, b]) hem) hseg hx
    cases hnone.symm.trans hl
  · cases hQ

end TcpDpdk

import TcpDpdk.Cores
import TcpDpdk.Dispatch

/-!
# Commands beside the receive loops

The control thread takes a command on a flow in steps: it looks the quad up in one
table after the other, and then acts on the connection it found. Between any two of
them the cores receive. `uninterrupted` says that without a segment in between this is
the command as one step; `held_iff` says which segment makes the difference.
-/

namespace TcpDpdk

inductive Cmd where
  | close
  | send (data : List Byte)
  | flow

/-- `active_close`, `active_send_data` or `dump_connection`, which only prints. -/
def cliAct (K : RteCksum) (env : Env) (t : Tcp) (c : Connection) :
    Cmd → Option (Connection × List Frame)
  | .close => activeClose K env t c
  | .send data => activeSendData K env t c (tokenMem data) (BitVec.ofNat 32 data.length)
  | .flow => some (c, [])

inductive Control (n : Nat) where
  | idle
  | looking (cmd : Cmd) (q : Quad) (j : Fin (n + 1))
  | found (cmd : Cmd) (q : Quad) (j : Fin (n + 1)) (p : Nat)

structure Shared (n : Nat) where
  cores : TcpList n
  control : Control n

inductive Turn (n : Nat) where
  | dispatch (j : Fin (n + 1)) (p : Packet) (env : Env)
  | command (cmd : Cmd) (q : Quad)
  | connect (dip : BitVec 32) (dport sport : BitVec 16) (env : Env)
  | control (env : Env)

section
variable {n : Nat}

def Shared.withCore (s : Shared n) (j : Fin (n + 1)) (k : Core) (control : Control n) : Shared n where
  cores := Function.update s.cores j k
  control := control

def lookStep (s : Shared n) (cmd : Cmd) (q : Quad) (j : Fin (n + 1)) : Shared n :=
  match (s.cores j).tcp.rteHash.lookup q with
  | some p => { s with control := .found cmd q j p }
  | none =>
    if h : j.val + 1 < n + 1 then { s with control := .looking cmd q ⟨j.val + 1, h⟩ }
    else { s with control := .idle } -- connection not found

def actStep (K : RteCksum) (env : Env) (s : Shared n) (cmd : Cmd) (j : Fin (n + 1)) (p : Nat) :
    Option (Shared n × Out) :=
  match (s.cores j).heap.read p with
  | none => none -- the memory of a freed connection
  | some c => (cliAct K env (s.cores j).tcp c cmd).map fun (c, frames) =>
    (s.withCore j { s.cores j with heap := (s.cores j).heap.write p c } .idle, { frames })

/-- The control thread takes up a command only when it is done with the one before. -/
def sharedStep (K : RteCksum) (s : Shared n) : Turn n → Option (Shared n × Out)
  | .dispatch j p env =>
    (tcpRxPacket K env (s.cores j) p).map fun (k, out) => (s.withCore j k s.control, out)
  | .command cmd q =>
    match s.control with
    | .idle => some ({ s with control := .looking cmd q firstCore }, {})
    | _ => some (s, {})
  | .connect dip dport sport env =>
    match s.control with
    | .idle => (activeConnect K env (s.cores firstCore) dip dport sport).map fun (k, out) =>
      (s.withCore firstCore k .idle, out)
    | _ => some (s, {})
  | .control env =>
    match s.control with
    | .idle => some (s, {})
    | .looking cmd q j => some (lookStep s cmd q j, {})
    | .found cmd _ j p => actStep K env s cmd j p

def sharedMachine (K : RteCksum) (n : Nat) : Machine (Shared n) (Turn n) Out where
  init s := s.control = .idle ∧ ∃ nic, ∀ j, ∃ last, s.cores j = initializeTcp nic last
  step := sharedStep K

section
variable {K : RteCksum} {s : Shared n}

/-- A lookup that finds the quad and the action after it, with nothing in between, are
the command of one core. -/
theorem uninterrupted {cmd : Cmd} {q : Quad} {j : Fin (n + 1)} {p : Nat} {env : Env}
    (hs : s.control = .looking cmd q j) (hl : (s.cores j).tcp.rteHash.lookup q = some p) :
    ((sharedStep K s (.control env)).bind fun x => sharedStep K x.1 (.control env)) =
      (cliFlow (s.cores j) q fun c => cliAct K env (s.cores j).tcp c cmd).map fun (k, out) =>
        (s.withCore j k .idle, out) := by
  simp only [sharedStep, hs, lookStep, hl, Option.bind_some, actStep, cliFlow]
  cases (s.cores j).heap.read p with
  | none => rfl
  | some c =>
    simp only [Option.map_map]
    rfl

inductive Turned (K : RteCksum) (s : Shared n) : Turn n → Shared n → Prop
  | dispatched {j p env k out} : tcpRxPacket K env (s.cores j) p = some (k, out) →
      Turned K s (.dispatch j p env) (s.withCore j k s.control)
  | waited {i} : (∀ j p env, i ≠ .dispatch j p env) → Turned K s i s
  | taken {cmd q} : s.control = .idle →
      Turned K s (.command cmd q) { s with control := .looking cmd q firstCore }
  | connected {dip dport sport env k out} : s.control = .idle →
      activeConnect K env (s.cores firstCore) dip dport sport = some (k, out) →
      Turned K s (.connect dip dport sport env) (s.withCore firstCore k .idle)
  | looked {cmd q j env} : s.control = .looking cmd q j →
      Turned K s (.control env) (lookStep s cmd q j)
  | acted {cmd q j p env c d frames} : s.control = .found cmd q j p →
      (s.cores j).heap.read p = some c → cliAct K env (s.cores j).tcp c cmd = some (d, frames) →
      Turned K s (.control env)
        (s.withCore j { s.cores j with heap := (s.cores j).heap.write p d } .idle)

theorem sharedStep_turned {s' : Shared n} {i : Turn n} {out : Out}
    (h : sharedStep K s i = some (s', out)) : Turned K s i s' := by
  cases i with
  | dispatch j p env =>
    obtain ⟨⟨k, out⟩, hk, he⟩ := Option.map_eq_some_iff.mp h
    cases he
    exact .dispatched hk
  | command cmd q =>
    simp only [sharedStep] at h
    split at h
    · rename_i hs
      cases h
      exact .taken hs
    · cases h
      exact .waited fun _ _ _ h => nomatch h
  | connect dip dport sport env =>
    simp only [sharedStep] at h
    split at h
    · rename_i hs
      obtain ⟨⟨k, out⟩, hk, he⟩ := Option.map_eq_some_iff.mp h
      cases he
      exact .connected hs hk
    · cases h
      exact .waited fun _ _ _ h => nomatch h
  | control env =>
    simp only [sharedStep] at h
    split at h
    · cases h
      exact .waited fun _ _ _ h => nomatch h
    · rename_i hs
      cases h
      exact .looked hs
    · rename_i hs
      unfold actStep at h
      split at h
      · cases h
      · rename_i c hr
        obtain ⟨⟨d, frames⟩, ha, he⟩ := Option.map_eq_some_iff.mp h
        cases he
        exact .acted hs hr ha

/-! ## Tables -/

theorem cliAct_q {env : Env} {t : Tcp} {c d : Connection} {cmd : Cmd} {frames : List Frame}
    (h : cliAct K env t c cmd = some (d, frames)) : d.q = c.q := by
  cases cmd with
  | close =>
    obtain ⟨⟨e, fs⟩, hx, he⟩ := Option.map_eq_some_iff.mp h
    cases he
    obtain ⟨rfl, -⟩ := tcpTxPackets_some hx
    exact sent_q ..
  | send data =>
    obtain ⟨rfl, -⟩ := tcpTxPackets_some h
    exact sent_q ..
  | flow =>
    cases h
    rfl

theorem write_rep {k : Core} (hrep : k.Rep) {p : Nat} {c d : Connection}
    (hr : k.heap.read p = some c) (hq : d.q = c.q) :
    Core.Rep { k with heap := k.heap.write p d } := by
  intro x px hx
  obtain ⟨e, hre, he⟩ := hrep x px hx
  by_cases hp : px = p
  · subst hp
    cases hr.symm.trans hre
    exact ⟨d, Store.Heap.read_write hr, hq.trans he⟩
  · exact ⟨e, (Store.Heap.read_write_ne hp).trans hre, he⟩

theorem withCore_rep {j : Fin (n + 1)} {k : Core} {control : Control n}
    (h : ∀ j, (s.cores j).Rep) (hk : k.Rep) : ∀ i, ((s.withCore j k control).cores i).Rep := by
  intro i
  show (Function.update s.cores j k i).Rep
  by_cases hi : i = j
  · subst hi
    rw [Function.update_self]
    exact hk
  · rw [Function.update_of_ne hi]
    exact h i

theorem step_rep {k k' : Core} {i : Input} {out : Out} (hrep : k.Rep)
    (h : step K k i = some (k', out)) : k'.Rep := by
  obtain ⟨o, ht, -⟩ := step_slot hrep h
  exact ht.rep

theorem lookStep_cores (cmd : Cmd) (q : Quad) (j : Fin (n + 1)) :
    (lookStep s cmd q j).cores = s.cores := by
  unfold lookStep
  split
  · rfl
  · split <;> rfl

theorem run_shared_rep {tr : List (sharedMachine K n).Event} (h : Machine.Run tr s) :
    ∀ j, (s.cores j).Rep := by
  refine Machine.Run.inv (P := fun s : Shared n => ∀ j, (s.cores j).Rep) ?_ (fun e hpre => ?_) h
  · intro s ⟨_, nic, hs⟩ j
    obtain ⟨last, hj⟩ := hs j
    rw [hj]
    exact rep_init nic last
  · have ht := sharedStep_turned e.fired
    generalize e.input = i at ht
    generalize e.post = s' at ht
    cases ht with
    | @dispatched j p env k out hk =>
      exact withCore_rep hpre (step_rep (i := ⟨.rx p, env⟩) (hpre j) hk)
    | waited _ => exact hpre
    | taken _ => exact hpre
    | @connected dip dport sport env k out _ hk =>
      exact withCore_rep hpre (step_rep (i := ⟨.connect dip dport sport, env⟩) (hpre firstCore) hk)
    | looked _ =>
      intro j
      rw [lookStep_cores]
      exact hpre j
    | acted _ hr ha => exact withCore_rep hpre (write_rep (hpre _) hr (cliAct_q ha))

/-! ## What is found -/

/-- The connection a command has found is allocated and the entry of the quad. -/
def Shared.Held (s : Shared n) : Prop :=
  ∀ cmd q j p, s.control = .found cmd q j p →
    (s.cores j).tcp.rteHash.lookup q = some p ∧ p ∈ (s.cores j).heap.objs

def Leaves (k : Core) (q : Quad) (p : Packet) (env : Env) : Prop :=
  ∃ s c, rxSegment k.tcp.nic env.pad p = some s ∧ s.q = q ∧ k.conn q = some c ∧ c.leaves s = true

theorem rx_keeps {k k' : Core} {pkt : Packet} {env : Env} {out : Out} {q : Quad} {p : Nat}
    (hrep : k.Rep) (h : tcpRxPacket K env k pkt = some (k', out))
    (hl : k.tcp.rteHash.lookup q = some p) : k'.tcp.rteHash.lookup q = some p ↔ ¬Leaves k q pkt env := by
  obtain ⟨c, hr, -⟩ := hrep q p hl
  have hc := conn_of_lookup hl hr
  unfold tcpRxPacket at h
  split at h
  · rename_i hs
    cases h
    refine iff_of_true hl ?_
    intro ⟨s, _, hs', _⟩
    cases hs.symm.trans hs'
  · rename_i s hs
    by_cases hq : s.q = q
    · subst hq
      have hleaves : Leaves k s.q pkt env ↔ c.leaves s = true := by
        constructor
        · intro ⟨s', c', hs', _, hc', hlv⟩
          cases hs.symm.trans hs'
          cases hc.symm.trans hc'
          exact hlv
        · intro hlv
          exact ⟨s, c, hs, rfl, hc, hlv⟩
      rw [hleaves, rxDispatch_lookup hrep h hl hr]
      by_cases hlv : c.leaves s = true <;> simp [hlv]
    · refine iff_of_true ((rxDispatch_lookup_ne hrep h (Ne.symm hq)).trans hl) ?_
      intro ⟨s', _, hs', hq', _⟩
      cases hs.symm.trans hs'
      exact hq hq'

/-- Between finding a connection and acting on it, the core that has it takes its entry
away. -/
def LosesFound (e : (sharedMachine K n).Event) : Prop :=
  ∃ cmd q j p pkt env, e.pre.control = .found cmd q j p ∧ e.input = .dispatch j pkt env ∧
    Leaves (e.pre.cores j) q pkt env

theorem lookStep_held (cmd : Cmd) (q : Quad) (j : Fin (n + 1)) (hrep : (s.cores j).Rep) :
    (lookStep s cmd q j).Held := by
  unfold lookStep
  split
  · rename_i p hl
    intro cmd' q' j' p' hc
    cases hc
    obtain ⟨c, hr, -⟩ := hrep q p hl
    exact ⟨hl, Store.Heap.mem_of_read hr⟩
  · split
    · intro _ _ _ _ hc
      cases hc
    · intro _ _ _ _ hc
      cases hc

theorem dispatched_held {j : Fin (n + 1)} {pkt : Packet} {env : Env} {k : Core} {out : Out}
    (hrep : ∀ j, (s.cores j).Rep) (hheld : s.Held)
    (hk : tcpRxPacket K env (s.cores j) pkt = some (k, out)) :
    (s.withCore j k s.control).Held ↔
      ∀ cmd q p, s.control = .found cmd q j p → ¬Leaves (s.cores j) q pkt env := by
  have hkrep : k.Rep := step_rep (i := ⟨.rx pkt, env⟩) (hrep j) hk
  constructor
  · intro hpost cmd q p hc
    have hl := (hpost cmd q j p hc).1
    unfold Shared.withCore at hl
    dsimp only at hl
    rw [Function.update_self] at hl
    exact (rx_keeps (hrep j) hk (hheld cmd q j p hc).1).mp hl
  · intro hno cmd q i p hc
    obtain ⟨hl, hm⟩ := hheld cmd q i p hc
    unfold Shared.withCore
    dsimp only
    by_cases hi : i = j
    · subst hi
      rw [Function.update_self]
      have hlk := (rx_keeps (hrep i) hk hl).mpr (hno cmd q p hc)
      obtain ⟨c, hr, -⟩ := hkrep q p hlk
      exact ⟨hlk, Store.Heap.mem_of_read hr⟩
    · rw [Function.update_of_ne hi]
      exact ⟨hl, hm⟩

theorem event_held {e : (sharedMachine K n).Event} (hrep : ∀ j, (e.pre.cores j).Rep)
    (hpre : e.pre.Held) : e.post.Held ↔ ¬LosesFound e := by
  have ht := sharedStep_turned e.fired
  unfold LosesFound
  generalize e.input = i at ht
  generalize e.post = s' at ht
  -- the control thread itself takes nothing out of a table
  have control : (∀ j p env, i ≠ .dispatch j p env) → ¬∃ cmd q j p pkt env,
      e.pre.control = .found cmd q j p ∧ i = .dispatch j pkt env ∧ Leaves (e.pre.cores j) q pkt env := by
    intro hi ⟨_, _, j, _, pkt, env, _, hd, _⟩
    exact hi j pkt env hd
  cases ht with
  | @dispatched j pkt env k out hk =>
    rw [dispatched_held hrep hpre hk]
    constructor
    · intro hno ⟨cmd, q, j', p, pkt', env', hc, hd, hlv⟩
      cases hd
      exact hno cmd q p hc hlv
    · intro hno cmd q p hc hlv
      exact hno ⟨cmd, q, j, p, pkt, env, hc, rfl, hlv⟩
  | waited hi => exact iff_of_true hpre (control hi)
  | taken _ =>
    exact iff_of_true (fun _ _ _ _ hc => nomatch hc) (control fun _ _ _ h => nomatch h)
  | connected _ _ =>
    exact iff_of_true (fun _ _ _ _ hc => nomatch hc) (control fun _ _ _ h => nomatch h)
  | looked _ =>
    exact iff_of_true (lookStep_held _ _ _ (hrep _)) (control fun _ _ _ h => nomatch h)
  | acted _ _ _ =>
    exact iff_of_true (fun _ _ _ _ hc => nomatch hc) (control fun _ _ _ h => nomatch h)

/-- For every number of cores and every interleaving: whatever a command has found is
allocated and in the table until it acts, exactly if no core takes the entry away in
the meantime. -/
theorem held_iff {tr : List (sharedMachine K n).Event} (h : Machine.Run tr s) :
    (∀ e ∈ tr, e.post.Held) ↔ ∀ e ∈ tr, ¬LosesFound e := by
  rw [← Machine.meets_mem, ← Machine.meets_mem]
  refine Machine.Run.meets_iff_inv (I := fun _ s => s.Held) ?_ ?_ ?_ h
  · intro s ⟨hs, _⟩ cmd q j p hc
    cases hs.symm.trans hc
  · intro tr e hr hI
    exact event_held (run_shared_rep hr) hI
  · intro tr e hr hI hD
    exact (event_held (run_shared_rep hr) hI).mpr hD

end

end

/-! ## On the host -/

def sharedHost : Shared 0 := ⟨fun _ => host, .idle⟩

theorem sharedHost_init (K : RteCksum) : (sharedMachine K 0).init sharedHost :=
  ⟨rfl, hostNic, fun _ => ⟨0, rfl⟩⟩

def arrives (flags : Byte) (seq ackn : BitVec 32) : Turn 0 :=
  .dispatch 0 (peerPacket flags seq ackn []) calm

/-- The peer opens a connection and closes it, and the command finds it in TCP_LAST_ACK. -/
def closeFindsLastAck : List (Turn 0) :=
  [arrives rteTcpSynFlag 0 0, arrives rteTcpAckFlag 1 1,
    arrives (rteTcpFinFlag ||| rteTcpAckFlag) 1 1, .command .close peerQuad, .control calm]

theorem held_iff_close : ∃ (tr : List (sharedMachine rfcCksum 0).Event) (s : Shared 0),
    Machine.Run tr s ∧ tr.length = 5 ∧ ((∀ e ∈ tr, e.post.Held) ↔ ∀ e ∈ tr, ¬LosesFound e) := by
  obtain ⟨tr, s, hr, hlen⟩ := Machine.exists_run (sharedHost_init rfcCksum) closeFindsLastAck
    (Q := fun r => r.1.length = 5) (by decide +kernel)
  exact ⟨tr, s, hr, of_decide_eq_true hlen, held_iff hr⟩

def Shared.finds (s : Shared 0) (q : Quad) (p : Nat) : Bool :=
  match s.control with
  | .found _ q' _ p' => q' = q ∧ p' = p
  | _ => false

/-- The last acknowledgment comes between the lookup and `active_close`. -/
theorem not_held : ¬∀ (n : Nat) (tr : List (sharedMachine rfcCksum n).Event) (s : Shared n),
    Machine.Run tr s → s.Held := by
  intro h
  obtain ⟨tr, s, hr, hQ⟩ := Machine.exists_run (sharedHost_init rfcCksum)
    (closeFindsLastAck ++ [arrives rteTcpAckFlag 2 2])
    (Q := fun r => r.2.finds peerQuad 0 = true ∧ 0 ∉ (r.2.cores 0).heap.objs) (by decide +kernel)
  obtain ⟨hfinds, hfreed⟩ := of_decide_eq_true hQ
  unfold Shared.finds at hfinds
  split at hfinds
  · rename_i cmd q j p hc
    obtain ⟨rfl, rfl⟩ := of_decide_eq_true hfinds
    obtain rfl : j = 0 := Fin.eq_zero j
    exact hfreed (h 0 tr s hr _ _ _ _ hc).2
  · cases hfinds

end TcpDpdk

import TcpDpdk.Cores
import TcpDpdk.Lib.Cells
import TcpDpdk.Survival

/-!
# Flows apart

A core is its flows, side by side: `flowStep` is the program of a single one, which knows
of the host its addresses only. `core_splits` says that a step of the core is a step of
the flow with its key, so a flow is not disturbed by whatever is sent to the others, and
the order in which the flows take their turns shows nowhere.
-/

namespace TcpDpdk

/-! ## One flow -/

def onFound (act : Connection → Option (Connection × List Frame)) :
    Option Connection → Option (Option Connection × Out)
  | none => some (none, {})
  | some c => (act c).map fun (c, frames) => (some c, { frames })

/-- A table of its own for the flow, for the handlers to take entries from. -/
def flowTcp (nic : Nic) : Tcp := (initializeTcp nic 0).tcp

def flowConnect (K : RteCksum) (env : Env) (t : Tcp) (dip : BitVec 32) (dport sport : BitVec 16) :
    Option Connection → Option (Option Connection × Out)
  | some c => some (some c, {})
  | none =>
    match env.object with
    | none => none
    | some g =>
      (tcpTxPackets K env t (connectConnection g (connectQuad t.nic env.pad dip dport sport))
        Mem.null 0).map fun (c, frames) => (some c, { frames })

def flowStep (K : RteCksum) (nic : Nic) (o : Option Connection) (i : Input) :
    Option (Option Connection × Out) :=
  match i.op with
  | .rx p => packetStep K i.env (flowTcp nic) p o
  | .connect dip dport sport => flowConnect K i.env (flowTcp nic) dip dport sport o
  | .close _ => onFound (activeClose K i.env (flowTcp nic)) o
  | .send _ data =>
    onFound (fun c => activeSendData K i.env (flowTcp nic) c (tokenMem data)
      (BitVec.ofNat 32 data.length)) o

def flow (K : RteCksum) (nic : Nic) : Machine (Option Connection) Input Out where
  init o := o = none
  step := flowStep K nic

/-! ## A core and its flows -/

section
variable {K : RteCksum} {k : Core} {nic : Nic} {env : Env}

theorem activeClose_env {t t' : Tcp} (hn : t.nic = t'.nic) :
    activeClose K env t = activeClose K env t' := by
  funext c
  unfold activeClose
  rw [tcpTxPackets_env rfl hn]

theorem activeSendData_env {t t' : Tcp} (hn : t.nic = t'.nic) (c : Connection) (data : Mem)
    (size : BitVec 32) :
    activeSendData K env t c data size = activeSendData K env t' c data size := by
  unfold activeSendData
  exact tcpTxPackets_env rfl hn ..

theorem activeClose_q {t : Tcp} {c d : Connection} {frames : List Frame}
    (h : activeClose K env t c = some (d, frames)) : d.q = c.q := by
  obtain ⟨⟨e, fs⟩, hx, he⟩ := Option.map_eq_some_iff.mp h
  cases he
  obtain ⟨rfl, -⟩ := tcpTxPackets_some hx
  exact sent_q ..

theorem activeSendData_q {t : Tcp} {c d : Connection} {data : Mem} {size : BitVec 32}
    {frames : List Frame} (h : activeSendData K env t c data size = some (d, frames)) :
    d.q = c.q := by
  obtain ⟨rfl, -⟩ := tcpTxPackets_some h
  exact sent_q ..

theorem cliFlow_own (h : k.Rep) {q : Quad} {act : Connection → Option (Connection × List Frame)}
    (hq : ∀ {c d frames}, act c = some (d, frames) → d.q = c.q) :
    Option.Rel (fun x y => x.1.conn q = y.1 ∧ x.2 = y.2) (cliFlow k q act)
      (onFound act (k.conn q)) := by
  unfold cliFlow onFound
  cases hc : k.conn q with
  | none =>
    simp only [lookup_of_conn_none h hc]
    exact .some ⟨hc, rfl⟩
  | some c =>
    obtain ⟨p, hl, hr⟩ := lookup_conn hc
    simp only [hl, hr]
    cases ha : act c with
    | none => exact .none
    | some r =>
      have hkey : r.1.q = q := (hq ha).trans (h.key hc)
      exact .some ⟨(touch_write h hl hr k.tcp.stats hkey).at_key, rfl⟩

theorem connect_own (h : k.Rep) {dip : BitVec 32} {dport sport : BitVec 16}
    (hroom : k.tcp.rteHash.Room (connectQuad k.tcp.nic env.pad dip dport sport)) :
    Option.Rel
      (fun x y => x.1.conn (connectQuad k.tcp.nic env.pad dip dport sport) = y.1 ∧ x.2 = y.2)
      (activeConnect K env k dip dport sport)
      (flowConnect K env k.tcp dip dport sport
        (k.conn (connectQuad k.tcp.nic env.pad dip dport sport))) := by
  unfold activeConnect flowConnect
  cases hc : k.conn (connectQuad k.tcp.nic env.pad dip dport sport) with
  | none =>
    simp only [lookup_of_conn_none h hc]
    cases env.object with
    | none => exact .none
    | some g =>
      dsimp only
      cases tcpTxPackets K env k.tcp
          (connectConnection g (connectQuad k.tcp.nic env.pad dip dport sport)) Mem.null 0#64 with
      | none => exact .none
      | some r => exact .some ⟨inserted_conn hroom r.1, rfl⟩
  | some c =>
    obtain ⟨p, hl, -⟩ := lookup_conn hc
    simp only [hl]
    exact .some ⟨hc, rfl⟩

theorem flowConnect_env {t t' : Tcp} (hn : t.nic = t'.nic) (dip : BitVec 32) (dport sport : BitVec 16)
    (o : Option Connection) :
    flowConnect K env t dip dport sport o = flowConnect K env t' dip dport sport o := by
  unfold flowConnect
  simp only [tcpTxPackets_env rfl hn, hn]

theorem step_own (h : k.Rep) {i : Input} (hroom : k.tcp.rteHash.Room (keyOf k.tcp.nic i)) :
    Option.Rel (fun x y => x.1.conn (keyOf k.tcp.nic i) = y.1 ∧ x.2 = y.2) (step K k i)
      (flowStep K k.tcp.nic (k.conn (keyOf k.tcp.nic i)) i) := by
  obtain ⟨op, env⟩ := i
  have hn : k.tcp.nic = (flowTcp k.tcp.nic).nic := rfl
  unfold flowStep
  cases op with
  | rx p =>
    have hpacket := step_packet K env p h hroom
    rw [packetStep_env (b := env) rfl rfl hn fun _ => rfl] at hpacket
    show Option.Rel _ _ (packetStep K env (flowTcp k.tcp.nic) p (k.conn (env.key k.tcp.nic p)))
    generalize packetStep K env (flowTcp k.tcp.nic) p (k.conn (env.key k.tcp.nic p)) = y at hpacket ⊢
    generalize step K k ⟨.rx p, env⟩ = x at hpacket ⊢
    cases hpacket with
    | none => exact .none
    | some hxy => exact .some ⟨hxy.1.touch.at_key, hxy.2⟩
  | connect dip dport sport =>
    dsimp only [step]
    rw [← flowConnect_env hn]
    exact connect_own h hroom
  | close q =>
    dsimp only [step]
    rw [← activeClose_env hn]
    exact cliFlow_own h activeClose_q
  | send q data =>
    dsimp only [step]
    simp only [← activeSendData_env hn]
    exact cliFlow_own h activeSendData_q

variable (K nic) in
theorem core_splits : Cells.Splits (machine K) (flow K nic) Core.conn (keyOf nic)
    (fun k => k.Rep ∧ k.tcp.nic = nic) (fun k i => k.tcp.rteHash.Room (keyOf nic i)) where
  inv h hw := by
    obtain ⟨o, htouch, -⟩ := step_slot h.1 hw
    exact ⟨htouch.rep, htouch.nic.trans h.2⟩
  others h hw := by
    obtain ⟨o, htouch, -⟩ := step_slot h.1 hw
    rw [← h.2]
    exact htouch.others
  own h hroom := by
    obtain ⟨hrep, rfl⟩ := h
    exact step_own hrep hroom

/-! ## Runs -/

/-- Two runs in which the same is done at `q` leave the same there and answer the same,
whatever else is in them; all they need is a place for `q`. -/
theorem isolated_flow {tr₁ tr₂ : List (machine K).Event} {k₁ k₂ : Core} (h₁ : Machine.Run tr₁ k₁)
    (h₂ : Machine.Run tr₂ k₂) (hnic : k₁.tcp.nic = k₂.tcp.nic) {q : Quad}
    (hq : k₁.conn q = k₂.conn q) {xs ys : List (machine K).Event} {t₁ t₂ : Core}
    (hx : Machine.Path k₁ xs t₁) (hy : Machine.Path k₂ ys t₂)
    (hroom : ∀ e ∈ xs ++ ys, eventKey e = q → e.pre.tcp.rteHash.Room q)
    (hin : Cells.share (keyOf k₁.tcp.nic) q (xs.map (·.input)) =
      Cells.share (keyOf k₁.tcp.nic) q (ys.map (·.input))) :
    t₁.conn q = t₂.conn q ∧
      (Cells.happens (keyOf k₁.tcp.nic) q xs).map Prod.snd =
        (Cells.happens (keyOf k₁.tcp.nic) q ys).map Prod.snd := by
  have along : ∀ {zs : List (machine K).Event} {s t : Core}, Machine.Path s zs t → s.Rep →
      ∀ e ∈ zs, e.pre.tcp.nic = s.tcp.nic := by
    intro zs s t hp hs e he
    obtain ⟨zs₁, zs₂, rfl⟩ := List.append_of_mem he
    obtain ⟨u, hp₁, rfl, -⟩ := Machine.path_append.mp hp
    exact (path_rep hp₁ hs).2
  refine (core_splits K k₁.tcp.nic).isolated q hx hy ⟨run_rep h₁, rfl⟩ ⟨run_rep h₂, hnic.symm⟩ hq
    (fun e he hkey => ?_) (fun e he hkey => ?_) hin
  · rw [hkey]
    refine hroom e (List.mem_append_left _ he) ?_
    unfold eventKey
    rw [along hx (run_rep h₁) e he, hkey]
  · rw [hkey]
    refine hroom e (List.mem_append_right _ he) ?_
    unfold eventKey
    rw [along hy (run_rep h₂) e he, ← hnic, hkey]

section
variable {S : Finset Quad}

end

end

/-! ## On the host -/

def otherSyn : Input :=
  ⟨.rx { peerPacket rteTcpSynFlag 0 0 [] with tcp.srcPort := 7 }, calm⟩

def disturbed : List Input :=
  [recv rteTcpSynFlag 0 0 [], otherSyn, recv rteTcpAckFlag 1 1 []]

theorem run_host : Machine.Run (M := machine rfcCksum) [] host :=
  Machine.run_nil.mpr (host_init rfcCksum)

/-- A handshake, with a SYN from another port between its segments and without. -/
theorem isolated_flow_disturbed : ∃ (xs ys : List (machine rfcCksum).Event) (t₁ t₂ : Core),
    Machine.Path host xs t₁ ∧ Machine.Path host ys t₂ ∧ xs.length = 3 ∧ ys.length = 2 ∧
      t₂.stateOf peerQuad = some .established ∧ t₁.conn peerQuad = t₂.conn peerQuad := by
  obtain ⟨⟨xs, t₁⟩, hx, hQx⟩ := (Option.any_eq_true ..).mp
    (show ((machine rfcCksum).replay host disturbed).any (fun r => r.1.length = 3 ∧
      ∀ e ∈ r.1, e.pre.tcp.rteHash.Room peerQuad) = true by decide +kernel)
  obtain ⟨⟨ys, t₂⟩, hy, hQy⟩ := (Option.any_eq_true ..).mp
    (show ((machine rfcCksum).replay host peerOpens).any (fun r =>
      (r.1.length = 2 ∧ r.2.stateOf peerQuad = some .established) ∧
      ∀ e ∈ r.1, e.pre.tcp.rteHash.Room peerQuad) = true by decide +kernel)
  obtain ⟨hlx, hrx⟩ := of_decide_eq_true hQx
  obtain ⟨⟨hly, hst⟩, hry⟩ := of_decide_eq_true hQy
  refine ⟨xs, ys, t₁, t₂, Machine.replay_path hx, Machine.replay_path hy, hlx, hly, hst, ?_⟩
  refine (isolated_flow run_host run_host rfl rfl (Machine.replay_path hx)
    (Machine.replay_path hy) (fun e he _ => ?_) ?_).1
  · rcases List.mem_append.mp he with he | he
    · exact hrx e he
    · exact hry e he
  · rw [Machine.replay_inputs hx, Machine.replay_inputs hy]
    rfl

end TcpDpdk

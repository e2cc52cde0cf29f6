import TcpDpdk.Creation
import TcpDpdk.Keys
import Mathlib.Logic.Function.Basic

/-!
# Dispatching a segment

Dispatch looks at one slot of the table, that of the segment's quad, and what becomes
of it depends on nothing else: `slotStep` computes it, `rxDispatch_slot` says the core
does the same. So segments of different quads can be taken in either order.
-/

namespace TcpDpdk

/-! ## The states dispatch knows -/

def TcpState.Live (st : TcpState) : Prop :=
  st = .synSent ∨ st = .synRecv ∨ st = .established ∨ st = .finWait1 ∨ st = .lastAck

/-- The states with a case of their own in the switch. -/
def TcpState.dispatched : TcpState → Bool
  | .synRecv | .established | .lastAck | .synSent | .finWait1 | .finWait2 => true
  | _ => false

section
variable {K : RteCksum}

theorem live_dispatched {st : TcpState} (h : st.Live) : st.dispatched = true := by
  obtain rfl | rfl | rfl | rfl | rfl := h <;> rfl

theorem slot_live {env : Env} {t : Tcp} {op : Op} {o o' : Option Connection} {out : Out}
    (h : Slot K env t op o o' out) (hlive : ∀ c, o = some c → c.tcpState.Live) :
    ∀ c, o' = some c → c.tcpState.Live := by
  intro c hc
  have hm := slot_moves h hc
  generalize c.tcpState = st at hm
  cases hm with
  | stays => exact hlive _ rfl
  | listened => exact Or.inr (Or.inl rfl)
  | connected => exact Or.inl rfl
  | synAcked _ _ _ => exact Or.inr (Or.inr (Or.inl rfl))
  | finReceived _ _ _ => exact Or.inr (Or.inr (Or.inr (Or.inr rfl)))
  | closed => exact Or.inr (Or.inr (Or.inr (Or.inl rfl)))

/-- In every run, whatever the table points to is allocated and in one of five states,
each with a handler, so the default branch of the switch is never taken. -/
theorem live_run {tr : List (machine K).Event} {k : Core} (h : Machine.Run tr k) :
    (∀ q p, k.tcp.rteHash.lookup q = some p → ∃ c, k.heap.read p = some c ∧ c.tcpState.Live) ∧
      ∀ e ∈ tr, ∀ s c, segOf e = some s → e.pre.conn s.q = some c →
        c.tcpState.dispatched = true := by
  constructor
  · intro q p hl
    obtain ⟨c, hr, -⟩ := run_rep h q p hl
    exact ⟨c, hr, run_conn slot_live h q c (conn_of_lookup hl hr)⟩
  · intro e he s c _ hc
    obtain ⟨tr₁, hr⟩ := h.reached he
    exact live_dispatched (run_conn slot_live hr s.q c hc)

end

/-! ## One slot -/

/-- What receiving `s` does to a slot: the connection it leaves there and the output. -/
def slotStep (K : RteCksum) (env : Env) (t : Tcp) (s : Seg) :
    Option Connection → Option (Option Connection × Out)
  | none => handleTcpListen K env t s
  | some c => (rxSwitch K env t c s).map fun r => (if c.leaves s then none else some r.conn, r.out)

def Connection.counts (c : Connection) (s : Seg) : BitVec 64 :=
  if c.tcpState = .synRecv ∧ segmentCheck c s.size s.seq = true ∧ ackCheck c s.ackn = true then 1 else 0

def slotCounts (o : Option Connection) (s : Seg) : BitVec 64 := (o.map (·.counts s)).getD 0

section
variable {K : RteCksum} {a b : Env} {t t' : Tcp} {c : Connection} {s : Seg}

theorem rxSwitch_count {r : Ret} (h : rxSwitch K a t c s = some r) :
    r.tcp.stats.connectionCount = t.stats.connectionCount + c.counts s := by
  have zero : ∀ {st}, c.tcpState = st → st ≠ .synRecv → c.counts s = 0 := by
    intro st hst hne
    unfold Connection.counts
    rw [if_neg fun h => hne (hst.symm.trans h.1)]
  unfold rxSwitch at h
  split at h
  · rename_i hst
    unfold Connection.counts
    unfold handleTcpSynRecv at h
    split at h
    · rename_i hs
      rw [if_neg (by simp [hs])]
      split at h
      · obtain ⟨x, -, rfl⟩ := Option.map_eq_some_iff.mp h
        simp
      · cases h
        simp
    · rename_i hs
      rw [Bool.not_eq_false] at hs
      split at h
      · rename_i ha
        rw [if_pos ⟨hst, hs, ha⟩]
        dsimp only at h
        split at h <;> cases h <;> rfl
      · rename_i ha
        rw [if_neg (by simp [ha])]
        cases h
        simp
  · rename_i hst
    rw [zero hst (by decide)]
    rcases handleTcpEstablish_cases h with ⟨_, -, -, -, rfl⟩ | ⟨-, -, -, rfl⟩ |
      ⟨_, -, -, -, -, rfl⟩ | ⟨-, rfl⟩ <;> simp
  · rename_i hst
    rw [zero hst (by decide)]
    cases h
    simp [handleTcpLastAck, rteHashDelKey]
  · rename_i hst
    rw [zero hst (by decide)]
    obtain ⟨_, _, -, -, rfl⟩ := handleTcpSynSent_cases h
    simp
  · rename_i hst
    rw [zero hst (by decide)]
    rcases handleTcpFinWait1_cases h with ⟨_, -, -, -, rfl⟩ | ⟨-, rfl⟩ <;> simp [rteHashDelKey]
  · rename_i hst
    rw [zero hst (by decide)]
    rcases handleTcpFinWait2_cases h with ⟨_, -, -, rfl⟩ | ⟨-, rfl⟩ <;> simp [rteHashDelKey]
  · rename_i h1 _ _ _ _ _
    cases h
    rw [zero rfl h1]
    simp

/-! ### What it depends on -/

section
variable (hm : a.mbuf = b.mbuf) (hn : t.nic = t'.nic)
include hm hn

theorem tcpTxPackets_env (c : Connection) (data : Mem) (n : BitVec 64) :
    tcpTxPackets K a t c data n = tcpTxPackets K b t' c data n := by
  unfold tcpTxPackets sendP txFrame
  rw [hm, hn]

theorem rxSwitch_env : (rxSwitch K a t c s).map (fun r => (r.conn, r.out)) =
    (rxSwitch K b t' c s).map (fun r => (r.conn, r.out)) := by
  unfold rxSwitch
  split
  · unfold handleTcpSynRecv
    rw [tcpTxPackets_env hm hn]
    split
    · split
      · simp only [Option.map_map]
        rfl
      · rfl
    · split <;> rfl
  · unfold handleTcpEstablish
    simp only [tcpTxPackets_env hm hn]
    split
    · split
      · simp only [Option.map_map]
        rfl
      · split
        · rfl
        · simp only [Option.map_map]
          rfl
    · rfl
  · rfl
  · unfold handleTcpSynSent
    dsimp only
    split
    · rw [tcpTxPackets_env hm hn]
      simp only [Option.map_map]
      rfl
    · rfl
  · unfold handleTcpFinWait1
    rw [tcpTxPackets_env hm hn]
    split
    · rfl
    · split
      · simp only [Option.map_map]
        rfl
      · rfl
  · unfold handleTcpFinWait2
    rw [tcpTxPackets_env hm hn]
    split
    · rfl
    · simp only [Option.map_map]
      rfl
  · rfl

theorem slotStep_env {o : Option Connection} (ho : o = none → a.object = b.object) :
    slotStep K a t s o = slotStep K b t' s o := by
  cases o with
  | none =>
    unfold slotStep handleTcpListen
    rw [ho rfl]
    simp only [tcpTxPackets_env hm hn]
  | some c =>
    have h := congrArg (Option.map fun r => (if c.leaves s then none else some r.1, r.2))
      (rxSwitch_env (K := K) (c := c) (s := s) hm hn)
    simp only [Option.map_map] at h
    exact h

end

end

/-! ### What creation leaves uninitialised -/

def Ipv4Hdr.blank (h : Ipv4Hdr) : Ipv4Hdr :=
  { h with typeOfService := 0, packetId := 0, hdrChecksum := 0 }

def TcpHdr.blank (h : TcpHdr) : TcpHdr := { h with cksum := 0, tcpUrp := 0 }

/-- Without the fields creation leaves as it finds them, and what is computed from them. -/
def Connection.blank (c : Connection) : Connection :=
  { c with
    sendSequenceSpace.iss := 0
    rteIpv4Hdr := c.rteIpv4Hdr.blank
    rteTcpHdr := c.rteTcpHdr.blank
    payload := Mem.null }

def Frame.blank (f : Frame) : Frame := { f with ipv4 := f.ipv4.blank, tcp := f.tcp.blank }

def Out.blank (out : Out) : Out := { out with frames := out.frames.map Frame.blank }

def slotBlank (r : Option Connection × Out) : Option Connection × Out :=
  (r.1.map (·.blank), r.2.blank)

section
variable {K : RteCksum} {a b : Env} {t t' : Tcp} {s : Seg}

theorem txFlag_blank (flag : Byte) (c : Connection) :
    (txFlag flag c).blank = txFlag flag c.blank := by
  unfold txFlag
  split <;> rename_i h
  · rw [if_pos (show c.blank.rteTcpHdr.has flag = true from h)]
    rfl
  · rw [if_neg (show ¬c.blank.rteTcpHdr.has flag = true from h)]

theorem sendP_blank (env : Env) (t : Tcp) (c : Connection) (data : Mem) (n : BitVec 64) :
    (sendP env t c data n).map (List.map Frame.blank) =
      (sendP env t c.blank data n).map (List.map Frame.blank) := by
  unfold sendP
  split
  · rfl
  · split <;> rfl

theorem tcpTxPackets_blank (env : Env) (t : Tcp) (data : Mem) {c d : Connection} {n : BitVec 64}
    (h : (txHeaders K c n).blank = (txHeaders K d n).blank) :
    (tcpTxPackets K env t c data n).map (fun r => (r.1.blank, r.2.map Frame.blank)) =
      (tcpTxPackets K env t d data n).map (fun r => (r.1.blank, r.2.map Frame.blank)) := by
  have one : ∀ c : Connection,
      (tcpTxPackets K env t c data n).map (fun r => (r.1.blank, r.2.map Frame.blank)) =
        ((sendP env t (txHeaders K c n).blank data n).map (List.map Frame.blank)).map fun fs =>
          (txFlag rteTcpFinFlag (txFlag rteTcpSynFlag (txHeaders K c n).blank), fs) := by
    intro c
    rw [← sendP_blank, ← txFlag_blank, ← txFlag_blank]
    simp only [tcpTxPackets, Option.map_map]
    rfl
  rw [one, one, h]

theorem slotStep_blank (hm : a.mbuf = b.mbuf) (hn : t.nic = t'.nic) (ha : a.object ≠ none)
    (hb : b.object ≠ none) (o : Option Connection) :
    (slotStep K a t s o).map slotBlank = (slotStep K b t' s o).map slotBlank := by
  cases o with
  | some c =>
    have h := rxSwitch_env (K := K) (c := c) (s := s) hm hn
    have h := congrArg (Option.map fun r =>
      slotBlank (if c.leaves s then none else some r.1, r.2)) h
    simp only [Option.map_map] at h
    unfold slotStep
    simp only [Option.map_map]
    exact h
  | none =>
    obtain ⟨g, hg⟩ := Option.ne_none_iff_exists'.mp ha
    obtain ⟨g', hg'⟩ := Option.ne_none_iff_exists'.mp hb
    by_cases hf : s.tcpHdr.tcpFlags = rteTcpSynFlag
    · have h := tcpTxPackets_blank (K := K) b t' s.data (c := listenConnection g s)
        (d := listenConnection g' s) (n := sizeT s.size) rfl
      have h := congrArg (Option.map fun r => (some r.1, ({ frames := r.2 } : Out))) h
      simp only [Option.map_map] at h
      simp only [slotStep, handleTcpListen, hf, hg, hg', ne_eq, not_true, ite_false,
        Option.map_map, tcpTxPackets_env hm hn]
      exact h
    · simp only [slotStep, handleTcpListen, ne_eq, hf, not_false_iff, ite_true]

end

/-! ## The core and its slots -/

structure Dispatched (k : Core) (q : Quad) (n : BitVec 64) (k' : Core) (o : Option Connection) :
    Prop where
  touch : Touch k k' q o
  count : k'.tcp.stats.connectionCount = k.tcp.stats.connectionCount + n
  length : k'.tcp.rteHash.map.entries.length ≤ k.tcp.rteHash.map.entries.length + 1

section
variable {K : RteCksum} {env : Env} {k : Core} {s : Seg}

variable (K env) in
theorem rxDispatch_unknown (hrep : k.Rep) (hroom : k.tcp.rteHash.Room s.q)
    (hl : k.tcp.rteHash.lookup s.q = none) :
    Option.Rel (fun x y => Dispatched k s.q (slotCounts (k.conn s.q) s) x.1 y.1 ∧ x.2 = y.2)
      (rxDispatch K env k s) (slotStep K env k.tcp s none) := by
  have hzero : slotCounts (k.conn s.q) s = 0 := by rw [conn_none hl]; rfl
  simp only [rxDispatch, slotStep, hl]
  cases hL : handleTcpListen K env k.tcp s with
  | none => exact .none
  | some r =>
    rcases handleTcpListen_cases hL with ⟨_, rfl⟩ | ⟨g, frames, _, _, _, rfl⟩
    · have ht : Touch k k s.q none := conn_none hl ▸ Touch.refl hrep
      exact .some ⟨⟨ht, by simp [hzero], Nat.le_succ _⟩, rfl⟩
    · let c := (listenConnection g s).sent K (sizeT s.size)
      obtain ⟨o, ht, -⟩ := touch_add hrep hl (c := c) (sent_q ..)
      have ho : o = some c := ht.at_key.symm.trans (inserted_conn hroom c)
      rw [ho] at ht
      refine .some ⟨⟨ht, by simp [hzero], ?_⟩, rfl⟩
      exact Store.Table.length_add_le k.tcp.rteHash s.q k.heap.next

variable (K env) in
theorem rxDispatch_known (hrep : k.Rep) {p : Nat} {c : Connection}
    (hl : k.tcp.rteHash.lookup s.q = some p) (hr : k.heap.read p = some c) :
    Option.Rel (fun x y => Dispatched k s.q (slotCounts (k.conn s.q) s) x.1 y.1 ∧ x.2 = y.2)
      (rxDispatch K env k s) (slotStep K env k.tcp s (some c)) := by
  have hc : k.conn s.q = some c := conn_of_lookup hl hr
  simp only [rxDispatch, slotStep, hl, hr]
  cases hsw : rxSwitch K env k.tcp c s with
  | none => exact .none
  | some r =>
    obtain ⟨o, ht, -⟩ := rxSwitch_slot hrep hl hr hsw
    have htab := rxSwitch_table hsw
    rw [hrep.key hc] at htab
    have hcount : r.tcp.stats.connectionCount =
        k.tcp.stats.connectionCount + slotCounts (k.conn s.q) s := by
      rw [hc]
      exact rxSwitch_count hsw
    have hlen : r.tcp.rteHash.map.entries.length ≤ k.tcp.rteHash.map.entries.length := by
      rw [htab]
      split
      · exact Store.Table.length_del_le ..
      · exact Nat.le_refl _
    simp only [Option.map_some]
    refine .some ?_
    by_cases hst : c.tcpState = .lastAck
    · have hlv : c.leaves s = true := by unfold Connection.leaves; rw [hst]
      rw [if_pos hst] at ht ⊢
      rw [if_pos hlv]
      have ho : o = none := ht.at_key.symm.trans (conn_none (Store.Table.lookup_del ..))
      rw [ho] at ht
      refine ⟨⟨ht, hcount, ?_⟩, rfl⟩
      exact ((Store.Table.length_del_le ..).trans hlen).trans (Nat.le_succ _)
    · rw [if_neg hst] at ht ⊢
      refine ⟨⟨?_, hcount, hlen.trans (Nat.le_succ _)⟩, rfl⟩
      by_cases hlv : c.leaves s = true
      · rw [if_pos hlv] at htab ⊢
        have ho : o = none :=
          ht.at_key.symm.trans (conn_none (by rw [htab]; exact Store.Table.lookup_del ..))
        rw [ho] at ht
        exact ht
      · rw [if_neg hlv] at htab ⊢
        have ho : o = some r.conn :=
          ht.at_key.symm.trans (conn_of_lookup (by rw [htab]; exact hl) (Store.Heap.read_write hr))
        rw [ho] at ht
        exact ht

/-- With room for one more entry, dispatch does to the core what `slotStep` does to the
slot of the segment. -/
theorem rxDispatch_slot (hrep : k.Rep) (hroom : k.tcp.rteHash.Room s.q) :
    Option.Rel (fun x y => Dispatched k s.q (slotCounts (k.conn s.q) s) x.1 y.1 ∧ x.2 = y.2)
      (rxDispatch K env k s) (slotStep K env k.tcp s (k.conn s.q)) := by
  cases hl : k.tcp.rteHash.lookup s.q with
  | none =>
    have h := rxDispatch_unknown K env hrep hroom hl
    rw [← conn_none hl] at h
    exact h
  | some p =>
    obtain ⟨c, hr, -⟩ := hrep s.q p hl
    have h := rxDispatch_known K env hrep hl hr
    rw [← conn_of_lookup hl hr] at h
    exact h

/-! ### The table -/

section
variable {k' : Core} {out : Out}

theorem rxDispatch_lookup (hrep : k.Rep) (h : rxDispatch K env k s = some (k', out)) {p : Nat}
    {c : Connection} (hl : k.tcp.rteHash.lookup s.q = some p) (hr : k.heap.read p = some c) :
    k'.tcp.rteHash.lookup s.q = if c.leaves s then none else some p := by
  have hq : c.q = s.q := hrep.key (conn_of_lookup hl hr)
  cases rxDispatch_some h with
  | ignored hn _ => cases hn.symm.trans hl
  | opened hn _ => cases hn.symm.trans hl
  | freed hl' hr' hsw hst =>
    cases hl.symm.trans hl'
    cases hr.symm.trans hr'
    have hlv : c.leaves s = true := by unfold Connection.leaves; rw [hst]
    rw [if_pos hlv]
    exact Store.Table.lookup_del ..
  | handled hl' hr' hsw hst =>
    cases hl.symm.trans hl'
    cases hr.symm.trans hr'
    rw [rxSwitch_table hsw, hq]
    split
    · exact Store.Table.lookup_del ..
    · exact hl

theorem rxDispatch_lookup_ne (hrep : k.Rep) (h : rxDispatch K env k s = some (k', out)) {x : Quad}
    (hx : x ≠ s.q) : k'.tcp.rteHash.lookup x = k.tcp.rteHash.lookup x := by
  have elsewhere : ∀ {p c r}, k.tcp.rteHash.lookup s.q = some p → k.heap.read p = some c →
      rxSwitch K env k.tcp c s = some r → r.tcp.rteHash.lookup x = k.tcp.rteHash.lookup x := by
    intro p c r hl hr hsw
    rw [rxSwitch_table hsw, hrep.key (conn_of_lookup hl hr)]
    split
    · exact Store.Table.lookup_del_ne hx
    · rfl
  cases rxDispatch_some h with
  | ignored _ _ => rfl
  | opened _ _ => exact Store.Table.lookup_add_ne hx
  | freed hl hr hsw _ => exact (Store.Table.lookup_del_ne hx).trans (elsewhere hl hr hsw)
  | handled hl hr hsw _ => exact elsewhere hl hr hsw

end

/-! ### Packets -/

def packetStep (K : RteCksum) (env : Env) (t : Tcp) (p : Packet) (o : Option Connection) :
    Option (Option Connection × Out) :=
  match rxSegment t.nic env.pad p with
  | none => some (o, {})
  | some s => slotStep K env t s o

def packetCounts (nic : Nic) (pad : BitVec 32) (p : Packet) (o : Option Connection) : BitVec 64 :=
  ((rxSegment nic pad p).map (slotCounts o)).getD 0

def Env.key (env : Env) (nic : Nic) (p : Packet) : Quad := keyOf nic ⟨.rx p, env⟩

variable (K env) in
theorem step_packet (p : Packet) (hrep : k.Rep) (hroom : k.tcp.rteHash.Room (env.key k.tcp.nic p)) :
    Option.Rel (fun x y => Dispatched k (env.key k.tcp.nic p)
        (packetCounts k.tcp.nic env.pad p (k.conn (env.key k.tcp.nic p))) x.1 y.1 ∧ x.2 = y.2)
      (step K k ⟨.rx p, env⟩) (packetStep K env k.tcp p (k.conn (env.key k.tcp.nic p))) := by
  simp only [step, tcpRxPacket, packetStep, packetCounts]
  cases hs : rxSegment k.tcp.nic env.pad p with
  | none => exact .some ⟨⟨Touch.refl hrep, by simp, Nat.le_succ _⟩, rfl⟩
  | some s =>
    have hk : env.key k.tcp.nic p = s.q := by
      obtain ⟨-, rfl⟩ := rxSegment_some hs
      rfl
    rw [hk] at hroom ⊢
    exact rxDispatch_slot hrep hroom

section
variable {a b : Env} {t t' : Tcp} {p : Packet} {o : Option Connection}

theorem packetStep_env (hm : a.mbuf = b.mbuf) (hp : a.pad = b.pad) (hn : t.nic = t'.nic)
    (ho : o = none → a.object = b.object) : packetStep K a t p o = packetStep K b t' p o := by
  unfold packetStep
  rw [hp, hn]
  split
  · rfl
  · exact slotStep_env hm hn ho

theorem packetStep_blank (hm : a.mbuf = b.mbuf) (hp : a.pad = b.pad) (hn : t.nic = t'.nic)
    (ha : a.object ≠ none) (hb : b.object ≠ none) :
    (packetStep K a t p o).map slotBlank = (packetStep K b t' p o).map slotBlank := by
  unfold packetStep
  rw [hp, hn]
  split
  · rfl
  · exact slotStep_blank hm hn ha hb o

end

end

/-! ## Two segments -/

/-- What is compared after two steps: the connections, by value and under their keys,
their number, and the output of each step. -/
@[ext] structure View where
  conn : Quad → Option Connection
  connectionCount : BitVec 64
  out₁ : Out
  out₂ : Out

def View.swap (v : View) : View := { v with out₁ := v.out₂, out₂ := v.out₁ }

def View.blank (v : View) : View :=
  { v with
    conn := fun q => (v.conn q).map (·.blank)
    out₁ := v.out₁.blank
    out₂ := v.out₂.blank }

def inOrder (K : RteCksum) (k : Core) (i j : Input) : Option View :=
  (step K k i).bind fun x => (step K x.1 j).map fun y =>
    ⟨y.1.conn, y.1.tcp.stats.connectionCount, x.2, y.2⟩

/-- The two environments a segment is processed in, in the one order and in the other:
DPDK has a buffer and an object each time, and the gaps of the key are the same. -/
structure Served (a b : Env) : Prop where
  buffer : a.mbuf = true ∧ b.mbuf = true
  object : a.object ≠ none ∧ b.object ≠ none
  gaps : a.pad = b.pad

section
variable {K : RteCksum} {k : Core} {p₁ p₂ : Packet} {a₁ a₂ b₁ b₂ : Env}

def Core.updated (k : Core) (q₁ q₂ : Quad) (n₁ n₂ : BitVec 64) (r₁ r₂ : Option Connection × Out) :
    View where
  conn := Function.update (Function.update k.conn q₁ r₁.1) q₂ r₂.1
  connectionCount := k.tcp.stats.connectionCount + n₁ + n₂
  out₁ := r₁.2
  out₂ := r₂.2

theorem updated_swap {q₁ q₂ : Quad} (hne : q₁ ≠ q₂) (n₁ n₂ : BitVec 64)
    (r₁ r₂ : Option Connection × Out) :
    (k.updated q₂ q₁ n₂ n₁ r₂ r₁).swap = k.updated q₁ q₂ n₁ n₂ r₁ r₂ := by
  unfold Core.updated View.swap
  rw [Function.update_comm hne, add_right_comm]

theorem Touch.update {k' : Core} {q : Quad} {o : Option Connection} (h : Touch k k' q o) :
    k'.conn = Function.update k.conn q o := by
  funext x
  by_cases hx : x = q
  · subst hx
    rw [Function.update_self]
    exact h.at_key
  · rw [Function.update_of_ne hx]
    exact h.others x hx

theorem room_of_length {k : Core} {n : Nat} (h : k.tcp.rteHash.map.entries.length + n ≤ 128)
    (hn : 0 < n) (q : Quad) : k.tcp.rteHash.Room q := Or.inr (by omega)

theorem inOrder_slots (hrep : k.Rep) (hfree : k.tcp.rteHash.map.entries.length + 2 ≤ 128)
    (hne : a₁.key k.tcp.nic p₁ ≠ a₂.key k.tcp.nic p₂) :
    inOrder K k ⟨.rx p₁, a₁⟩ ⟨.rx p₂, a₂⟩ =
      (packetStep K a₁ k.tcp p₁ (k.conn (a₁.key k.tcp.nic p₁))).bind fun r₁ =>
        (packetStep K a₂ k.tcp p₂ (k.conn (a₂.key k.tcp.nic p₂))).map fun r₂ =>
          k.updated (a₁.key k.tcp.nic p₁) (a₂.key k.tcp.nic p₂)
            (packetCounts k.tcp.nic a₁.pad p₁ (k.conn (a₁.key k.tcp.nic p₁)))
            (packetCounts k.tcp.nic a₂.pad p₂ (k.conn (a₂.key k.tcp.nic p₂))) r₁ r₂ := by
  have first := step_packet K a₁ p₁ hrep (room_of_length hfree (by decide) _)
  unfold inOrder
  generalize packetStep K a₁ k.tcp p₁ (k.conn (a₁.key k.tcp.nic p₁)) = A at first ⊢
  generalize step K k ⟨.rx p₁, a₁⟩ = X at first ⊢
  cases first with
  | none => rfl
  | @some x r₁ h =>
    obtain ⟨⟨htouch, hcount, hlen⟩, hout⟩ := h
    have hfree₁ : x.1.tcp.rteHash.map.entries.length + 1 ≤ 128 := by omega
    have second := step_packet K a₂ p₂ htouch.rep (room_of_length hfree₁ (by decide) _)
    rw [htouch.nic, htouch.others _ hne.symm,
      packetStep_env (b := a₂) rfl rfl htouch.nic (fun _ => rfl)] at second
    simp only [Option.bind_some]
    generalize packetStep K a₂ k.tcp p₂ (k.conn (a₂.key k.tcp.nic p₂)) = B at second ⊢
    generalize step K x.1 ⟨.rx p₂, a₂⟩ = Y at second ⊢
    cases second with
    | none => rfl
    | @some y r₂ h =>
      obtain ⟨⟨htouch₂, hcount₂, -⟩, hout₂⟩ := h
      simp only [Option.map_some]
      congr 1
      unfold Core.updated
      rw [htouch₂.update, htouch.update, hcount₂, hcount, hout, hout₂]

theorem key_env (hp : a₁.pad = b₁.pad) (nic : Nic) (p : Packet) : a₁.key nic p = b₁.key nic p := by
  unfold Env.key keyOf
  rw [hp]

variable (K p₁) in
theorem packetStep_served (h : Served a₁ b₁) (hk : k.conn (a₁.key k.tcp.nic p₁) ≠ none) :
    packetStep K a₁ k.tcp p₁ (k.conn (a₁.key k.tcp.nic p₁)) =
      packetStep K b₁ k.tcp p₁ (k.conn (a₁.key k.tcp.nic p₁)) :=
  packetStep_env (h.buffer.1.trans h.buffer.2.symm) h.gaps rfl fun hno => absurd hno hk

theorem updated_conn {q₁ q₂ : Quad} {n₁ n₂ : BitVec 64} {r₁ r₂ r₁' r₂' : Option Connection × Out}
    {q : Quad} (h₁ : q = q₁ → r₁ = r₁') (h₂ : q = q₂ → r₂ = r₂') :
    (k.updated q₁ q₂ n₁ n₂ r₁ r₂).conn q = (k.updated q₁ q₂ n₁ n₂ r₁' r₂').conn q := by
  unfold Core.updated
  dsimp only
  by_cases hq₂ : q = q₂
  · subst hq₂
    rw [Function.update_self, Function.update_self, h₂ rfl]
  · rw [Function.update_of_ne hq₂, Function.update_of_ne hq₂]
    by_cases hq₁ : q = q₁
    · subst hq₁
      rw [Function.update_self, Function.update_self, h₁ rfl]
    · rw [Function.update_of_ne hq₁, Function.update_of_ne hq₁]

theorem updated_blank {q₁ q₂ : Quad} {n₁ n₂ : BitVec 64} {r₁ r₂ r₁' r₂' : Option Connection × Out}
    (h₁ : slotBlank r₁ = slotBlank r₁') (h₂ : slotBlank r₂ = slotBlank r₂') :
    (k.updated q₁ q₂ n₁ n₂ r₁ r₂).blank = (k.updated q₁ q₂ n₁ n₂ r₁' r₂').blank := by
  obtain ⟨hc₁, ho₁⟩ := Prod.mk.inj h₁
  obtain ⟨hc₂, ho₂⟩ := Prod.mk.inj h₂
  unfold View.blank Core.updated
  dsimp only
  ext1
  · funext q
    dsimp only
    by_cases hq₂ : q = q₂
    · subst hq₂
      rw [Function.update_self, Function.update_self, hc₂]
    · rw [Function.update_of_ne hq₂, Function.update_of_ne hq₂]
      by_cases hq₁ : q = q₁
      · subst hq₁
        rw [Function.update_self, Function.update_self, hc₁]
      · rw [Function.update_of_ne hq₁, Function.update_of_ne hq₁]
  · rfl
  · exact ho₁
  · exact ho₂

theorem rel_of_map {α β : Type} {f : α → β} {x y : Option α} (h : x.map f = y.map f) :
    Option.Rel (fun a b => f a = f b) x y := by
  cases x with
  | none =>
    cases y with
    | none => exact .none
    | some b => cases h
  | some a =>
    cases y with
    | none => cases h
    | some b => exact .some (Option.some.inj h)

section
variable {q₁ q₂ : Quad} {n₁ n₂ : BitVec 64} {A A' B B' : Option (Option Connection × Out)}
  (hA : A.map slotBlank = A'.map slotBlank) (hB : B.map slotBlank = B'.map slotBlank)
include hA hB

theorem both_blank :
    (A.bind fun r₁ => B.map fun r₂ => k.updated q₁ q₂ n₁ n₂ r₁ r₂).map View.blank =
      (A'.bind fun r₁ => B'.map fun r₂ => k.updated q₁ q₂ n₁ n₂ r₁ r₂).map View.blank := by
  cases rel_of_map hA with
  | none => rfl
  | some h₁ =>
    cases rel_of_map hB with
    | none => rfl
    | some h₂ => exact congrArg some (updated_blank h₁ h₂)

theorem both_conn {q : Quad} (h₁ : q = q₁ → A = A') (h₂ : q = q₂ → B = B') :
    (A.bind fun r₁ => B.map fun r₂ => k.updated q₁ q₂ n₁ n₂ r₁ r₂).map (·.conn q) =
      (A'.bind fun r₁ => B'.map fun r₂ => k.updated q₁ q₂ n₁ n₂ r₁ r₂).map (·.conn q) := by
  cases rel_of_map hA with
  | none => rfl
  | some _ =>
    cases rel_of_map hB with
    | none => rfl
    | some _ =>
      exact congrArg some (updated_conn (fun h => Option.some.inj (h₁ h))
        fun h => Option.some.inj (h₂ h))

end

theorem inOrder_inverted (hrep : k.Rep) (hfree : k.tcp.rteHash.map.entries.length + 2 ≤ 128)
    (h₁ : a₁.pad = b₁.pad) (h₂ : a₂.pad = b₂.pad)
    (hne : a₁.key k.tcp.nic p₁ ≠ a₂.key k.tcp.nic p₂) :
    (inOrder K k ⟨.rx p₂, b₂⟩ ⟨.rx p₁, b₁⟩).map View.swap =
      (packetStep K b₁ k.tcp p₁ (k.conn (a₁.key k.tcp.nic p₁))).bind fun r₁ =>
        (packetStep K b₂ k.tcp p₂ (k.conn (a₂.key k.tcp.nic p₂))).map fun r₂ =>
          k.updated (a₁.key k.tcp.nic p₁) (a₂.key k.tcp.nic p₂)
            (packetCounts k.tcp.nic a₁.pad p₁ (k.conn (a₁.key k.tcp.nic p₁)))
            (packetCounts k.tcp.nic a₂.pad p₂ (k.conn (a₂.key k.tcp.nic p₂))) r₁ r₂ := by
  have hne' : b₂.key k.tcp.nic p₂ ≠ b₁.key k.tcp.nic p₁ := by
    rw [← key_env h₁, ← key_env h₂]
    exact hne.symm
  rw [inOrder_slots hrep hfree hne', ← key_env h₁, ← key_env h₂, ← h₁, ← h₂]
  cases packetStep K b₁ k.tcp p₁ (k.conn (a₁.key k.tcp.nic p₁)) with
  | none =>
    cases packetStep K b₂ k.tcp p₂ (k.conn (a₂.key k.tcp.nic p₂)) <;> rfl
  | some r₁ =>
    cases packetStep K b₂ k.tcp p₂ (k.conn (a₂.key k.tcp.nic p₂)) with
    | none => rfl
    | some r₂ => exact congrArg some (updated_swap hne ..)

/-- From any state a core can reach with two places left in its table, two segments
of different quads, taken in either order, both crash it or have the same effect: the
same connections and number of connections, and the same output for each segment. What
creation leaves uninitialised is left out, unless the objects are the same too; a quad
that was in the table has the very same connection. Each segment leaves the other quad
alone and is answered on its own route only. -/
theorem dispatch_comm {tr : List (machine K).Event} (h : Machine.Run tr k)
    (hfree : k.tcp.rteHash.map.entries.length + 2 ≤ 128) (h₁ : Served a₁ b₁) (h₂ : Served a₂ b₂)
    (hne : a₁.key k.tcp.nic p₁ ≠ a₂.key k.tcp.nic p₂) :
    let x := inOrder K k ⟨.rx p₁, a₁⟩ ⟨.rx p₂, a₂⟩
    let y := (inOrder K k ⟨.rx p₂, b₂⟩ ⟨.rx p₁, b₁⟩).map View.swap
    x.map View.blank = y.map View.blank ∧
      (a₁.object = b₁.object → a₂.object = b₂.object → x = y) ∧
      (∀ q, k.conn q ≠ none → x.map (·.conn q) = y.map (·.conn q)) ∧
      ∀ k' out, step K k ⟨.rx p₁, a₁⟩ = some (k', out) →
        (∀ q, q ≠ a₁.key k.tcp.nic p₁ → k'.conn q = k.conn q) ∧
          ∀ f ∈ out.frames, f.route = (a₁.key k.tcp.nic p₁).route := by
  have hrep := run_rep h
  have blank₁ := packetStep_blank (K := K) (t := k.tcp) (p := p₁)
    (o := k.conn (a₁.key k.tcp.nic p₁)) (h₁.buffer.1.trans h₁.buffer.2.symm) h₁.gaps rfl
    h₁.object.1 h₁.object.2
  have blank₂ := packetStep_blank (K := K) (t := k.tcp) (p := p₂)
    (o := k.conn (a₂.key k.tcp.nic p₂)) (h₂.buffer.1.trans h₂.buffer.2.symm) h₂.gaps rfl
    h₂.object.1 h₂.object.2
  have used₁ := packetStep_served K p₁ (k := k) h₁
  have used₂ := packetStep_served K p₂ (k := k) h₂
  intro x y
  have hx : x = _ := inOrder_slots hrep hfree hne
  have hy : y = _ := inOrder_inverted hrep hfree h₁.gaps h₂.gaps hne
  rw [hx, hy]
  refine ⟨?_, fun ho₁ ho₂ => ?_, fun q hq => ?_, fun k' out hw => ?_⟩
  · exact both_blank blank₁ blank₂
  · rw [packetStep_env (b := b₁) (h₁.buffer.1.trans h₁.buffer.2.symm) h₁.gaps rfl fun _ => ho₁,
      packetStep_env (b := b₂) (h₂.buffer.1.trans h₂.buffer.2.symm) h₂.gaps rfl fun _ => ho₂]
  · exact both_conn blank₁ blank₂ (fun he => used₁ (he ▸ hq)) (fun he => used₂ (he ▸ hq))
  · obtain ⟨o, htouch, hslot⟩ := step_slot hrep hw
    exact ⟨htouch.others, slot_route hslot (fun c hc => hrep.key hc) (run_conn slot_routed h _)⟩

end

/-! ## On the host -/

theorem live_run_peerOpens : ∃ (tr : List (machine rfcCksum).Event) (k : Core),
    Machine.Run tr k ∧ k.tcp.rteHash.lookup peerQuad = some 0 ∧
      (∀ q p, k.tcp.rteHash.lookup q = some p → ∃ c, k.heap.read p = some c ∧ c.tcpState.Live) ∧
      ∀ e ∈ tr, ∀ s c, segOf e = some s → e.pre.conn s.q = some c →
        c.tcpState.dispatched = true := by
  obtain ⟨tr, k, hr, hk⟩ := Machine.exists_run (host_init rfcCksum) peerOpens
    (Q := fun r => r.2.tcp.rteHash.lookup peerQuad = some 0) (by decide +kernel)
  exact ⟨tr, k, hr, of_decide_eq_true hk, live_run hr⟩

def used : Connection := { zeroed with rteIpv4Hdr.packetId := 77, sendSequenceSpace.iss := 5 }

/-- Data of the peer and a SYN from another port, the objects for the SYN not alike. -/
theorem dispatch_comm_data_syn : ∃ (tr : List (machine rfcCksum).Event) (k : Core),
    Machine.Run tr k ∧ k.stateOf peerQuad = some .established ∧
      let data := peerPacket rteTcpAckFlag 1 1 [0x41]
      let syn := { peerPacket rteTcpSynFlag 0 0 [] with tcp.srcPort := 7 }
      (inOrder rfcCksum k ⟨.rx data, calm⟩ ⟨.rx syn, calm⟩).map View.blank =
        ((inOrder rfcCksum k ⟨.rx syn, { calm with object := some used, clock := 2 }⟩
          ⟨.rx data, calm⟩).map View.swap).map View.blank := by
  obtain ⟨tr, k, hr, hQ⟩ := Machine.exists_run (host_init rfcCksum) peerOpens
    (Q := fun r => r.2.stateOf peerQuad = some .established ∧ r.2.tcp.nic = hostNic ∧
      r.2.tcp.rteHash.map.entries.length + 2 ≤ 128) (by decide +kernel)
  obtain ⟨hst, hnic, hfree⟩ := of_decide_eq_true hQ
  have same : Served calm calm := ⟨⟨rfl, rfl⟩, ⟨by simp [calm], by simp [calm]⟩, rfl⟩
  have other : Served calm { calm with object := some used, clock := 2 } :=
    ⟨⟨rfl, rfl⟩, ⟨by simp [calm], by simp⟩, rfl⟩
  exact ⟨tr, k, hr, hst, (dispatch_comm hr hfree same other (by rw [hnic]; decide)).1⟩

end TcpDpdk

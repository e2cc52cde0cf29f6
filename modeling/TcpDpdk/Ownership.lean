import TcpDpdk.Closing

/-!
# Who owns a connection

An object `rte_malloc` gave out belongs to the table entry that points to it. The
receive loop frees it in TCP_LAST_ACK, together with the entry; the handlers of
TCP_FIN_WAIT1 and TCP_FIN_WAIT2 take the entry out and free nothing. `Moved` lists
what a step can do to entries and objects, `accounted_iff` says when the two agree.
-/

namespace TcpDpdk

def Core.Owned (k : Core) : Prop := ∀ p, p ∈ k.heap.objs ↔ ∃ q, k.tcp.rteHash.lookup q = some p

/-! ## What a step does to entries and objects -/

def Connection.leaves (c : Connection) (s : Seg) : Bool :=
  match c.tcpState with
  | .lastAck => true
  | .finWait1 => segmentCheck c s.size s.seq && ackCheck c s.ackn
  | .finWait2 => segmentCheck c s.size s.seq
  | _ => false

inductive Moved (k : Core) (i : Input) (k' : Core) : Prop
  | kept : k'.tcp.rteHash = k.tcp.rteHash → (∀ x, x ∈ k'.heap.objs ↔ x ∈ k.heap.objs) → Moved k i k'
  | made {c} : k.tcp.rteHash.lookup (keyOf k.tcp.nic i) = none →
      k'.tcp.rteHash = k.tcp.rteHash.add (keyOf k.tcp.nic i) k.heap.next →
      k'.heap = k.heap.alloc c → Moved k i k'
  | freed {s p c} : opSegment k.tcp.nic i.env.pad i.op = some s →
      k.tcp.rteHash.lookup s.q = some p → k.heap.read p = some c → c.tcpState = .lastAck →
      (∀ x, k'.tcp.rteHash.lookup x = (k.tcp.rteHash.del s.q).lookup x) →
      k'.heap = k.heap.free p → Moved k i k'
  | left {s p c} : opSegment k.tcp.nic i.env.pad i.op = some s →
      k.tcp.rteHash.lookup s.q = some p → k.heap.read p = some c → c.tcpState ≠ .lastAck →
      c.leaves s = true → k'.tcp.rteHash = k.tcp.rteHash.del s.q →
      (∀ x, x ∈ k'.heap.objs ↔ x ∈ k.heap.objs) → Moved k i k'

section
variable {K : RteCksum} {env : Env}

theorem rxSwitch_table {t : Tcp} {c : Connection} {s : Seg} {r : Ret}
    (h : rxSwitch K env t c s = some r) :
    r.tcp.rteHash = if c.leaves s then t.rteHash.del c.q else t.rteHash := by
  unfold Connection.leaves
  unfold rxSwitch at h
  split at h
  · rename_i hst
    rw [hst]
    rcases handleTcpSynRecv_cases h with ⟨_, -, -, -, rfl⟩ | ⟨-, -, _, rfl⟩ | ⟨-, -, rfl⟩ <;> rfl
  · rename_i hst
    rw [hst]
    rcases handleTcpEstablish_cases h with ⟨_, -, -, -, rfl⟩ | ⟨-, -, -, rfl⟩ |
      ⟨_, -, -, -, -, rfl⟩ | ⟨-, rfl⟩ <;> rfl
  · rename_i hst
    obtain rfl := Option.some.inj h
    rw [hst]
    rfl
  · rename_i hst
    rw [hst]
    obtain ⟨_, _, -, -, rfl⟩ := handleTcpSynSent_cases h
    rfl
  · rename_i hst
    rw [hst]
    rcases handleTcpFinWait1_cases h with ⟨_, hsc, hac, -, rfl⟩ | ⟨hno, rfl⟩
    · simp only [hsc, hac, Bool.and_self, ite_true]
      rfl
    · rw [if_neg]
      intro ht
      obtain ⟨hsc, hac⟩ := Bool.and_eq_true_iff.mp ht
      cases (hno hsc).symm.trans hac
  · rename_i hst
    rw [hst]
    rcases handleTcpFinWait2_cases h with ⟨_, hsc, -, rfl⟩ | ⟨hsc, rfl⟩ <;> simp only [hsc] <;> rfl
  · obtain rfl := Option.some.inj h
    split <;> first | contradiction | rfl

theorem rxDispatch_moved {k k' : Core} {i : Input} {s : Seg} {out : Out} (hrep : k.Rep)
    (hs : opSegment k.tcp.nic i.env.pad i.op = some s) (hkey : keyOf k.tcp.nic i = s.q)
    (h : rxDispatch K env k s = some (k', out)) : Moved k i k' := by
  cases rxDispatch_some h with
  | ignored _ _ => exact .kept rfl fun _ => Iff.rfl
  | opened hl _ => exact .made (hkey ▸ hl) (by rw [hkey]) rfl
  | @freed p c r hl hr hsw hst =>
    have ht := rxSwitch_table hsw
    have hlv : c.leaves s = true := by unfold Connection.leaves; rw [hst]
    rw [hrep.key (conn_of_lookup hl hr), if_pos hlv] at ht
    refine .freed hs hl hr hst (fun x => ?_) rfl
    show (r.tcp.rteHash.del s.q).lookup x = _
    rw [ht]
    by_cases hx : x = s.q
    · subst hx; simp
    · rw [Store.Table.lookup_del_ne hx]
  | @handled p c r hl hr hsw hst =>
    have ht := rxSwitch_table hsw
    rw [hrep.key (conn_of_lookup hl hr)] at ht
    by_cases hlv : c.leaves s = true
    · rw [if_pos hlv] at ht
      exact .left hs hl hr hst hlv ht fun _ => Store.Heap.mem_write
    · rw [if_neg hlv] at ht
      exact .kept ht fun _ => Store.Heap.mem_write

theorem cliFlow_moved {k k' : Core} {i : Input} {q : Quad} {out : Out}
    {act : Connection → Option (Connection × List Frame)} (h : cliFlow k q act = some (k', out)) :
    Moved k i k' := by
  unfold cliFlow at h
  split at h
  · cases h
    exact .kept rfl fun _ => Iff.rfl
  · split at h
    · cases h
    · obtain ⟨r, -, he⟩ := Option.map_eq_some_iff.mp h
      cases he
      exact .kept rfl fun _ => Store.Heap.mem_write

theorem step_moved {k k' : Core} {i : Input} {out : Out} (hrep : k.Rep)
    (h : step K k i = some (k', out)) : Moved k i k' := by
  obtain ⟨op, env⟩ := i
  cases op with
  | rx p =>
    simp only [step, tcpRxPacket] at h
    split at h
    · cases h
      exact .kept rfl fun _ => Iff.rfl
    · rename_i s hs
      refine rxDispatch_moved hrep hs ?_ h
      obtain ⟨-, rfl⟩ := rxSegment_some hs
      rfl
  | connect dip dport sport =>
    simp only [step, activeConnect] at h
    split at h
    · rename_i hl
      split at h
      · cases h
      · obtain ⟨r, -, he⟩ := Option.map_eq_some_iff.mp h
        cases he
        exact .made hl rfl rfl
    · cases h
      exact .kept rfl fun _ => Iff.rfl
  | close q => exact cliFlow_moved h
  | send q data => exact cliFlow_moved h

end

/-! ## One step -/

section
variable {K : RteCksum}

/-- The step allocates nothing, or the table has room for what it allocates. -/
def Inserts (e : (machine K).Event) : Prop :=
  e.post.heap.next = e.pre.heap.next ∨ e.pre.tcp.rteHash.Room (eventKey e)

/-- Afterwards the objects are those the table points to, and an object was freed
exactly if its entry was removed. -/
def Accounted (e : (machine K).Event) : Prop :=
  e.post.Owned ∧ ∀ q p, e.pre.tcp.rteHash.lookup q = some p →
    (e.post.tcp.rteHash.lookup q = some p ↔ p ∈ e.post.heap.objs)

def LeavesFinWait1 (e : (machine K).Event) : Prop :=
  ∃ s c, segOf e = some s ∧ e.pre.conn s.q = some c ∧ c.tcpState = .finWait1 ∧ c.TakesAck s

theorem accounted_made {k k' : Core} {q : Quad} {c : Connection} (ho : k.Owned)
    (hl : k.tcp.rteHash.lookup q = none) (hroom : k.tcp.rteHash.Room q)
    (ht : k'.tcp.rteHash = k.tcp.rteHash.add q k.heap.next) (hh : k'.heap = k.heap.alloc c) :
    k'.Owned ∧ ∀ x p, k.tcp.rteHash.lookup x = some p →
      (k'.tcp.rteHash.lookup x = some p ↔ p ∈ k'.heap.objs) := by
  have old : ∀ x p, k.tcp.rteHash.lookup x = some p → k'.tcp.rteHash.lookup x = some p := by
    intro x p hx
    have hne : x ≠ q := fun he => by cases hl.symm.trans (he ▸ hx)
    rw [ht, Store.Table.lookup_add_ne hne]
    exact hx
  have mem : ∀ p, p ∈ k'.heap.objs ↔ p = k.heap.next ∨ p ∈ k.heap.objs := by
    intro p
    rw [hh]
    exact Store.Heap.mem_alloc
  refine ⟨fun p => ?_, fun x p hx => iff_of_true (old x p hx) ?_⟩
  · rw [mem]
    constructor
    · intro hp
      by_cases hn : p = k.heap.next
      · subst hn
        exact ⟨q, by rw [ht]; exact Store.Table.lookup_add hroom⟩
      · obtain ⟨x, hx⟩ := (ho p).mp (hp.resolve_left hn)
        exact ⟨x, old x p hx⟩
    · intro ⟨x, hx⟩
      rw [ht] at hx
      by_cases hxq : x = q
      · subst hxq
        rw [Store.Table.lookup_add hroom] at hx
        exact Or.inl (Option.some.inj hx).symm
      · rw [Store.Table.lookup_add_ne hxq] at hx
        exact Or.inr ((ho p).mpr ⟨x, hx⟩)
  · exact (mem p).mpr (Or.inr ((ho p).mpr ⟨x, hx⟩))

theorem accounted_freed {k k' : Core} {q : Quad} {p : Nat} (hrep : k.Rep) (ho : k.Owned)
    (hl : k.tcp.rteHash.lookup q = some p)
    (ht : ∀ x, k'.tcp.rteHash.lookup x = (k.tcp.rteHash.del q).lookup x)
    (hh : k'.heap = k.heap.free p) :
    k'.Owned ∧ ∀ x p', k.tcp.rteHash.lookup x = some p' →
      (k'.tcp.rteHash.lookup x = some p' ↔ p' ∈ k'.heap.objs) := by
  have mem : ∀ x, x ∈ k'.heap.objs ↔ x ≠ p ∧ x ∈ k.heap.objs := by
    intro x
    rw [hh]
    exact Store.Heap.mem_free
  have still : ∀ x p', k.tcp.rteHash.lookup x = some p' →
      (k'.tcp.rteHash.lookup x = some p' ↔ p' ∈ k'.heap.objs) := by
    intro x p' hx
    rw [ht, mem]
    by_cases hxq : x = q
    · subst hxq
      rw [Store.Table.lookup_del]
      exact iff_of_false (fun h => nomatch h) fun h => h.1 (Option.some.inj (hx.symm.trans hl))
    · rw [Store.Table.lookup_del_ne hxq]
      exact iff_of_true hx ⟨hrep.ne hl hx hxq, (ho p').mpr ⟨x, hx⟩⟩
  refine ⟨fun p' => ⟨fun hp => ?_, fun ⟨x, hx⟩ => ?_⟩, still⟩
  · obtain ⟨x, hx⟩ := (ho p').mp ((mem p').mp hp).2
    exact ⟨x, (still x p' hx).mpr hp⟩
  · have hold := hx
    rw [ht] at hold
    exact (still x p' (Store.Table.lookup_of_del hold).2).mp hx

theorem event_accounted {e : (machine K).Event} (hrep : e.pre.Rep) (ho : e.pre.Owned)
    (h2 : ∀ q c, e.pre.conn q = some c → c.tcpState ≠ .finWait2) (hins : Inserts e) :
    Accounted e ↔ ¬LeavesFinWait1 e := by
  -- after a step that took a connection out of TCP_FIN_WAIT1 its entry is gone
  have gone : ∀ {s c}, segOf e = some s → e.pre.conn s.q = some c → c.tcpState = .finWait1 →
      c.TakesAck s → e.post.conn s.q = none := fun hs hc hst ht =>
    (event_finWait1 hrep hs hc hst).mpr ht
  cases step_moved hrep e.fired with
  | kept ht hm =>
    refine iff_of_true ⟨fun p => ?_, fun q p hq => ?_⟩ ?_
    · rw [hm, ht]
      exact ho p
    · rw [hm, ht]
      exact iff_of_true hq ((ho p).mpr ⟨q, hq⟩)
    · intro ⟨s, c, hs, hc, hst, htakes⟩
      obtain ⟨p, hl, -⟩ := Option.bind_eq_some_iff.mp hc
      have hp : p ∈ e.post.heap.objs := (hm p).mpr ((ho p).mpr ⟨_, hl⟩)
      have hno := gone hs hc hst htakes
      unfold Core.conn at hno
      rw [ht, hl] at hno
      exact AList.lookup_eq_none.mp hno hp
  | made hl ht hh =>
    have hroom : e.pre.tcp.rteHash.Room (eventKey e) := by
      refine hins.resolve_left fun hn => ?_
      rw [hh] at hn
      exact absurd hn (Nat.succ_ne_self _)
    apply iff_of_true (accounted_made ho hl hroom ht hh)
    intro ⟨s, c, hs, hc, _, _⟩
    have hk : eventKey e = s.q := segOf_key hs
    cases (conn_none hl).symm.trans (hk ▸ hc)
  | @freed s p c hs hl hr hst ht hh =>
    apply iff_of_true (accounted_freed hrep ho hl ht hh)
    intro ⟨s', c', hs', hc', hst', _⟩
    cases hs.symm.trans hs'
    cases (conn_of_lookup hl hr).symm.trans hc'
    cases hst.symm.trans hst'
  | @left s p c hs hl hr hst hlv ht hm =>
    refine iff_of_false ?_ (not_not.mpr ?_)
    · intro ⟨_, hfreed⟩
      have hin := (hfreed s.q p hl).mpr ((hm p).mpr ((ho p).mpr ⟨_, hl⟩))
      rw [ht, Store.Table.lookup_del] at hin
      cases hin
    · have hc := conn_of_lookup hl hr
      refine ⟨s, c, hs, hc, ?_⟩
      unfold Connection.leaves at hlv
      split at hlv
      · rename_i h; exact absurd h hst
      · rename_i h; exact ⟨h, Bool.and_eq_true_iff.mp hlv⟩
      · rename_i h; exact absurd h (h2 _ c hc)
      · cases hlv

/-! ## Runs -/

/-- In every run whose insertions succeed, objects and table entries agree after
every step exactly if no connection leaves TCP_FIN_WAIT1. -/
theorem accounted_iff {tr : List (machine K).Event} {k : Core} (h : Machine.Run tr k)
    (hins : ∀ e ∈ tr, Inserts e) : (∀ e ∈ tr, Accounted e) ↔ ∀ e ∈ tr, ¬LeavesFinWait1 e := by
  have both : Machine.Meets (fun _ e => Inserts e ∧ Accounted e) tr ↔
      Machine.Meets (fun _ e => Inserts e ∧ ¬LeavesFinWait1 e) tr := by
    have step : ∀ (tr : List (machine K).Event) (e : (machine K).Event), Machine.Run tr e.pre →
        e.pre.Owned → (Inserts e ∧ Accounted e ↔ Inserts e ∧ ¬LeavesFinWait1 e) :=
      fun tr e hr ho => and_congr_right fun hi =>
        event_accounted (run_rep hr) ho (run_not_finWait2 hr) hi
    refine Machine.Run.meets_iff_inv (I := fun _ k => k.Owned) ?_ step ?_ h
    · intro s ⟨nic, last, hs⟩ p
      subst hs
      exact iff_of_false (AList.notMem_empty p) fun ⟨_, hq⟩ => nomatch hq
    · intro tr e hr ho hD
      exact ((step tr e hr ho).mpr hD).2.1
  rw [Machine.meets_and, Machine.meets_and, Machine.meets_mem, Machine.meets_mem,
    Machine.meets_mem] at both
  exact ⟨fun hall => (both.mp ⟨hins, hall⟩).2, fun hall => (both.mpr ⟨hins, hall⟩).2⟩

instance (e : (machine K).Event) : Decidable (Inserts e) := inferInstanceAs (Decidable (_ ∨ _))

end

/-! ## On the host -/

theorem accounted_iff_peerOpens : ∃ (tr : List (machine rfcCksum).Event) (k : Core),
    Machine.Run tr k ∧ tr.length = 2 ∧ ((∀ e ∈ tr, Accounted e) ↔ ∀ e ∈ tr, ¬LeavesFinWait1 e) := by
  obtain ⟨tr, k, hr, hQ⟩ := Machine.exists_run (host_init rfcCksum) peerOpens
    (Q := fun r => r.1.length = 2 ∧ ∀ e ∈ r.1, Inserts e) (by decide +kernel)
  obtain ⟨hlen, hins⟩ := of_decide_eq_true hQ
  exact ⟨tr, k, hr, hlen, accounted_iff hr hins⟩

/-- The acknowledgment of our FIN takes the entry out of the table and leaves the
object where it is. -/
theorem not_accounted : ¬∀ (tr : List (machine rfcCksum).Event) (k : Core), Machine.Run tr k →
    (∀ e ∈ tr, Inserts e) → ∀ e ∈ tr, Accounted e := by
  intro h
  obtain ⟨tr, k, hr, hQ⟩ := Machine.exists_run (host_init rfcCksum)
    (peerOpens ++ [userClose, recv rteTcpAckFlag 1 2 []])
    (Q := fun r => (∀ e ∈ r.1, Inserts e) ∧ ∃ e ∈ r.1,
      e.pre.tcp.rteHash.lookup peerQuad = some 0 ∧ e.post.tcp.rteHash.lookup peerQuad = none ∧
        0 ∈ e.post.heap.objs) (by decide +kernel)
  obtain ⟨hins, e, he, hpre, hpost, hmem⟩ := of_decide_eq_true hQ
  have hin := ((h tr k hr hins e he).2 peerQuad 0 hpre).mpr hmem
  cases hpost.symm.trans hin

end TcpDpdk

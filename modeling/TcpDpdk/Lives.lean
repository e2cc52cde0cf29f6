import TcpDpdk.Dispatch

/-!
# The life of a connection

What the statistics say is read off the run: they note the handshakes that were completed on
connections the peer opened, each once. `lives` says what comes before and after that, up to
the step that takes the connection out of the table.
-/

namespace TcpDpdk

/-! ## The statistics -/

/-- What `handle_tcp_syn_recv` notes. -/
def TcpStatistics.noted (st : TcpStatistics) (clock : BitVec 64) : TcpStatistics :=
  let st :=
    if st.firstConnection = 0 then { st with firstConnection := clock }
    else { st with lastConnection := clock }
  { st with connectionCount := st.connectionCount + 1 }

/-- A handshake is noted exactly if `P`. -/
def Notes (P : Prop) (st : TcpStatistics) (clock : BitVec 64) (st' : TcpStatistics) : Prop :=
  (P ∧ st' = st.noted clock) ∨ (¬P ∧ st' = st)

section
variable {K : RteCksum} {env : Env} {t : Tcp} {c : Connection} {s : Seg}

theorem rxSwitch_notes {r : Ret} (h : rxSwitch K env t c s = some r) :
    Notes (c.tcpState = .synRecv ∧ r.conn.tcpState = .established) t.stats env.clock
      r.tcp.stats := by
  have other : c.tcpState ≠ .synRecv → r.tcp.stats = t.stats →
      Notes (c.tcpState = .synRecv ∧ r.conn.tcpState = .established) t.stats env.clock
        r.tcp.stats := fun hst hsame => Or.inr ⟨fun h => hst h.1, hsame⟩
  unfold rxSwitch at h
  split at h
  · rename_i hst
    unfold handleTcpSynRecv at h
    split at h
    · split at h
      · obtain ⟨⟨d, frames⟩, hx, rfl⟩ := Option.map_eq_some_iff.mp h
        obtain ⟨rfl, -⟩ := tcpTxPackets_some hx
        have hd : (c.unsent.sent K (sizeT s.size)).tcpState ≠ .established := by
          rw [sent_tcpState]
          exact fun h => absurd (hst.symm.trans h) (by decide)
        exact Or.inr ⟨fun h => hd h.2, rfl⟩
      · cases h
        exact Or.inr ⟨by simp [hst], rfl⟩
    · split at h
      · cases h
        exact Or.inl ⟨⟨hst, rfl⟩, rfl⟩
      · cases h
        exact Or.inr ⟨by simp [hst], rfl⟩
  · rename_i hst
    apply other (by simp [hst])
    rcases handleTcpEstablish_cases h with ⟨_, -, -, -, rfl⟩ | ⟨-, -, -, rfl⟩ |
      ⟨_, -, -, -, -, rfl⟩ | ⟨-, rfl⟩ <;> rfl
  · rename_i hst
    apply other (by simp [hst])
    cases h
    rfl
  · rename_i hst
    apply other (by simp [hst])
    obtain ⟨_, _, -, -, rfl⟩ := handleTcpSynSent_cases h
    rfl
  · rename_i hst
    apply other (by simp [hst])
    rcases handleTcpFinWait1_cases h with ⟨_, -, -, -, rfl⟩ | ⟨-, rfl⟩ <;> rfl
  · rename_i hst
    apply other (by simp [hst])
    rcases handleTcpFinWait2_cases h with ⟨_, -, -, rfl⟩ | ⟨-, rfl⟩ <;> rfl
  · rename_i h1 _ _ _ _ _
    cases h
    exact other h1 rfl

end

section
variable {K : RteCksum} {k k' : Core} {env : Env} {out : Out}

theorem rxDispatch_notes {s : Seg} (h : rxDispatch K env k s = some (k', out)) :
    Notes (k.stateOf s.q = some .synRecv ∧ k'.stateOf s.q = some .established) k.tcp.stats env.clock
      k'.tcp.stats := by
  cases rxDispatch_some h with
  | ignored hl _ => exact Or.inr ⟨by simp [Core.stateOf, conn_none hl], rfl⟩
  | opened hl _ => exact Or.inr ⟨by simp [Core.stateOf, conn_none hl], rfl⟩
  | @freed p c r hl hr hsw hst =>
    refine Or.inr ⟨by simp [Core.stateOf, conn_of_lookup hl hr, hst], ?_⟩
    rcases rxSwitch_notes hsw with ⟨⟨hst', -⟩, -⟩ | ⟨-, hsame⟩
    · cases hst.symm.trans hst'
    · exact hsame
  | @handled p c r hl hr hsw hst =>
    have hpre : k.stateOf s.q = some c.tcpState := by
      rw [Core.stateOf, conn_of_lookup hl hr]
      rfl
    by_cases hrecv : c.tcpState = .synRecv
    · have hlv : c.leaves s = false := by
        unfold Connection.leaves
        rw [hrecv]
      have htab := rxSwitch_table hsw
      rw [hlv] at htab
      have hl' : r.tcp.rteHash.lookup s.q = some p := by
        rw [htab]
        exact hl
      have hpost : Core.stateOf ⟨r.tcp, k.heap.write p r.conn⟩ s.q = some r.conn.tcpState := by
        have hc : Core.conn ⟨r.tcp, k.heap.write p r.conn⟩ s.q = some r.conn :=
          conn_of_lookup hl' (Store.Heap.read_write hr)
        rw [Core.stateOf, hc]
        rfl
      rw [hpre, hpost, Option.some.injEq, Option.some.injEq]
      exact rxSwitch_notes hsw
    · rw [hpre, Option.some.injEq]
      rcases rxSwitch_notes hsw with ⟨⟨hst', -⟩, -⟩ | ⟨-, hsame⟩
      · exact absurd hst' hrecv
      · exact Or.inr ⟨fun h => hrecv h.1, hsame⟩

theorem cliFlow_stats {q : Quad} {act : Connection → Option (Connection × List Frame)}
    (h : cliFlow k q act = some (k', out)) : k'.tcp.stats = k.tcp.stats := by
  unfold cliFlow at h
  split at h
  · cases h
    rfl
  · split at h
    · cases h
    · obtain ⟨x, -, he⟩ := Option.map_eq_some_iff.mp h
      cases he
      rfl

theorem activeConnect_stats {dip : BitVec 32} {dport sport : BitVec 16}
    (h : activeConnect K env k dip dport sport = some (k', out)) :
    k'.tcp.stats = k.tcp.stats := by
  unfold activeConnect at h
  dsimp only at h
  split at h
  · split at h
    · cases h
    · obtain ⟨x, -, he⟩ := Option.map_eq_some_iff.mp h
      cases he
      rfl
  · cases h
    rfl

/-- A connection the peer opened becomes established. -/
def Completed (e : (machine K).Event) : Prop :=
  e.pre.stateOf (eventKey e) = some .synRecv ∧ e.post.stateOf (eventKey e) = some .established

instance (e : (machine K).Event) : Decidable (Completed e) := inferInstanceAs (Decidable (_ ∧ _))

theorem completed_rx {e : (machine K).Event} (hrep : e.pre.Rep) (h : Completed e) :
    ∃ p, e.input.op = .rx p := by
  obtain ⟨hpre, hpost⟩ := h
  obtain ⟨c, hc, hst⟩ := stateOf_eq.mp hpre
  obtain ⟨d, hd, hst'⟩ := stateOf_eq.mp hpost
  have hslot := (event_slot e hrep).2
  rw [hc] at hslot
  have hm := slot_moves hslot hd
  generalize d.tcpState = st at hm hst'
  generalize e.input.op = op at hm ⊢
  cases hm with
  | stays => exact absurd (hst.symm.trans hst') (by decide)
  | synAcked _ _ _ => exact ⟨_, rfl⟩
  | finReceived _ _ _ => cases hst'
  | closed => cases hst'

theorem event_notes (e : (machine K).Event) (hrep : e.pre.Rep) :
    Notes (Completed e) e.pre.tcp.stats e.input.env.clock e.post.tcp.stats := by
  have quiet : (∀ p, e.input.op ≠ .rx p) → e.post.tcp.stats = e.pre.tcp.stats →
      Notes (Completed e) e.pre.tcp.stats e.input.env.clock e.post.tcp.stats := by
    intro hop hsame
    refine Or.inr ⟨fun h => ?_, hsame⟩
    obtain ⟨p, hp⟩ := completed_rx hrep h
    exact hop p hp
  have hfired : step K e.pre e.input = some (e.post, e.out) := e.fired
  unfold step at hfired
  cases hop : e.input.op with
  | rx p =>
    rw [hop] at hfired
    dsimp only at hfired
    unfold tcpRxPacket at hfired
    cases hs : rxSegment e.pre.tcp.nic e.input.env.pad p with
    | none =>
      rw [hs] at hfired
      have hpost : e.pre = e.post := (Prod.mk.inj (Option.some.inj hfired)).1
      refine Or.inr ⟨fun h => ?_, by rw [hpost]⟩
      have hst := h.1
      rw [hpost, h.2] at hst
      cases hst
    | some s =>
      rw [hs] at hfired
      have hkey : eventKey e = s.q := by
        apply segOf_key
        rw [segOf, hop]
        exact hs
      unfold Completed
      rw [hkey]
      exact rxDispatch_notes hfired
  | connect dip dport sport =>
    rw [hop] at hfired
    exact quiet (by simp [hop]) (activeConnect_stats hfired)
  | close q =>
    rw [hop] at hfired
    exact quiet (by simp [hop]) (cliFlow_stats hfired)
  | send q data =>
    rw [hop] at hfired
    exact quiet (by simp [hop]) (cliFlow_stats hfired)

/-! ## A run -/

/-- When the handshakes of a run were completed. -/
def completions (tr : List (machine K).Event) : List (BitVec 64) :=
  (tr.filter fun e => Completed e).map (·.input.env.clock)

/-- What the statistics are for handshakes noted at the times `cs`; a time of zero goes for none. -/
def statsOf (last : BitVec 64) (cs : List (BitVec 64)) : TcpStatistics where
  connectionCount := BitVec.ofNat 64 cs.length
  firstConnection := ((cs.dropWhile (· = 0)).head?).getD 0
  lastConnection := ((cs.dropWhile (· = 0)).tail.getLast?).getD last

theorem statsOf_noted (last c : BitVec 64) (cs : List (BitVec 64)) :
    (statsOf last cs).noted c = statsOf last (cs ++ [c]) := by
  have hcount : BitVec.ofNat 64 (cs ++ [c]).length = BitVec.ofNat 64 cs.length + 1 := by
    rw [List.length_append, List.length_singleton, BitVec.ofNat_add]
    rfl
  have hhead := List.head?_dropWhile_not (fun x : BitVec 64 => decide (x = 0)) cs
  unfold statsOf TcpStatistics.noted
  rw [hcount, List.dropWhile_append]
  generalize cs.dropWhile (fun x => decide (x = 0)) = ds at hhead ⊢
  cases ds with
  | nil =>
    by_cases hc : c = 0
    · subst hc
      rfl
    · rw [List.isEmpty_nil, if_pos rfl, List.dropWhile_cons_of_neg (by simpa using hc)]
      rfl
  | cons y r =>
    have hy : y ≠ 0 := by simpa using hhead
    have htail : ((y :: r) ++ [c]).tail.getLast? = some c := List.getLast?_concat ..
    have hfirst : (y :: r).head?.getD 0 ≠ 0 := hy
    rw [if_neg hfirst, List.isEmpty_cons, if_neg Bool.false_ne_true, htail]
    rfl

theorem run_stats {tr : List (machine K).Event} {k₀ : Core} (h₀ : (machine K).init k₀)
    (h : Machine.Path k₀ tr k) :
    k.tcp.stats = statsOf k₀.tcp.stats.lastConnection (completions tr) := by
  induction tr using List.reverseRecOn generalizing k with
  | nil =>
    obtain rfl : k₀ = k := h
    obtain ⟨nic, last, rfl⟩ := h₀
    rfl
  | append_singleton tr e ih =>
    obtain ⟨hp, rfl⟩ := Machine.path_snoc.mp h
    have hrep : e.pre.Rep := run_rep ⟨k₀, h₀, hp⟩
    have hpre := ih hp
    unfold completions at hpre ⊢
    rw [List.filter_append, List.map_append]
    rcases event_notes e hrep with ⟨hc, hst⟩ | ⟨hc, hst⟩
    · rw [hst, hpre, statsOf_noted]
      simp [hc]
    · rw [hst, hpre]
      simp [hc]

/-! ## The states of one connection -/

/-- No state is left for one of a smaller rank. -/
def TcpState.rank : TcpState → Nat
  | .synSent | .synRecv => 0
  | .established => 1
  | .lastAck => 2
  | .finWait1 => 3
  | _ => 4

def TcpState.Before (a b : TcpState) : Prop := a = b ∨ a.rank < b.rank

theorem TcpState.Before.trans {a b c : TcpState} (h : a.Before b) (h' : b.Before c) :
    a.Before c := by
  rcases h with rfl | h
  · exact h'
  · rcases h' with rfl | h'
    · exact Or.inr h
    · exact Or.inr (Nat.lt_trans h h')

theorem moves_before {t : Tcp} {op : Op} {c : Connection} {st : TcpState}
    (h : Moves env t op (some c) st) (hlive : c.tcpState.Live) : c.tcpState.Before st := by
  cases h with
  | stays => exact Or.inl rfl
  | synAcked _ hread _ =>
    rcases hread with hst | ⟨hst, -⟩ <;> exact Or.inr (by rw [hst]; decide)
  | finReceived _ hst _ => exact Or.inr (by rw [hst]; decide)
  | closed =>
    generalize c.tcpState = st at hlive
    rcases hlive with rfl | rfl | rfl | rfl | rfl <;> simp [TcpState.Before, TcpState.rank]

theorem moves_synRecv {t : Tcp} {op : Op} {c : Connection} {st : TcpState}
    (h : Moves env t op (some c) st) (hst : st = .synRecv) : c.tcpState = .synRecv := by
  cases h with
  | stays => exact hst
  | synAcked _ _ _ => cases hst
  | finReceived _ _ _ => cases hst
  | closed => cases hst

/-- The life of `q` up to some point, which is in `sts` and has been noted `n` times. -/
structure Lived (sts : List TcpState) (n : Nat) (o : Option TcpState) : Prop where
  start : ∃ st, sts.head? = some st ∧ (st = .synSent ∨ st = .synRecv)
  live : ∀ st ∈ sts, st.Live
  order : sts.Pairwise TcpState.Before
  last : ∀ st, o = some st → ∀ x ∈ sts, x.Before st
  once : n ≤ 1
  fresh : o = some .synRecv → n = 0

theorem Lived.snoc {sts : List TcpState} {n : Nat} {st st' : TcpState} {m : Nat}
    (h : Lived sts n (some st)) (hbefore : st.Before st') (hlive : st'.Live)
    (hm : m = 0 ∨ m = 1 ∧ st = .synRecv ∧ st' = .established) (hrecv : st' = .synRecv → st = .synRecv) :
    Lived (sts ++ [st']) (n + m) (some st') := by
  have hall : ∀ x ∈ sts, x.Before st' := fun x hx => (h.last st rfl x hx).trans hbefore
  refine ⟨?_, ?_, ?_, ?_, ?_, ?_⟩
  · obtain ⟨st₀, hst₀, hkind⟩ := h.start
    exact ⟨st₀, by rw [List.head?_append, hst₀, Option.some_or], hkind⟩
  · intro x hx
    rcases List.mem_append.mp hx with hx | hx
    · exact h.live x hx
    · rw [List.mem_singleton.mp hx]
      exact hlive
  · refine List.pairwise_append.mpr ⟨h.order, List.pairwise_singleton .., fun x hx y hy => ?_⟩
    rw [List.mem_singleton.mp hy]
    exact hall x hx
  · intro y hy x hx
    cases hy
    rcases List.mem_append.mp hx with hx | hx
    · exact hall x hx
    · exact Or.inl (List.mem_singleton.mp hx)
  · rcases hm with rfl | ⟨rfl, hst, -⟩
    · exact h.once
    · rw [h.fresh (congrArg some hst)]
  · intro hst'
    have hst := Option.some.inj hst'
    rcases hm with rfl | ⟨rfl, -, hest⟩
    · exact h.fresh (congrArg some (hrecv hst))
    · cases hst.symm.trans hest

theorem Lived.leave {sts : List TcpState} {n : Nat} {o : Option TcpState} (h : Lived sts n o) :
    Lived sts n none := ⟨h.start, h.live, h.order, by simp, h.once, by simp⟩

/-- The states a connection under `q` is left in. -/
def statesOf (q : Quad) (tr : List (machine K).Event) : List TcpState :=
  tr.filterMap (·.post.stateOf q)

/-- How often the handshake of `q` is noted. -/
def notedOf (q : Quad) (tr : List (machine K).Event) : Nat :=
  (tr.filter fun e => Completed e ∧ eventKey e = q).length

theorem notedOf_snoc (q : Quad) (tr : List (machine K).Event) (e : (machine K).Event) :
    notedOf q (tr ++ [e]) = notedOf q tr + if Completed e ∧ eventKey e = q then 1 else 0 := by
  unfold notedOf
  rw [List.filter_append, List.length_append]
  by_cases h : Completed e ∧ eventKey e = q <;> simp [h]

theorem run_lived {ta xs : List (machine K).Event} {f : (machine K).Event} {q : Quad}
    (h : Machine.Run (ta ++ f :: xs) k) (hpre : f.pre.conn q = none) (hpost : f.post.conn q ≠ none)
    (hxs : ∀ x ∈ xs, x.pre.conn q ≠ none) :
    Lived (statesOf q (f :: xs)) (notedOf q (f :: xs)) (k.stateOf q) := by
  induction xs using List.reverseRecOn generalizing k with
  | nil =>
    have hlive := run_conn slot_live h q
    obtain ⟨hr, rfl⟩ := Machine.run_snoc.mp h
    obtain ⟨d, hd⟩ := Option.ne_none_iff_exists'.mp hpost
    have hst : f.post.stateOf q = some d.tcpState := by
      rw [Core.stateOf, hd]
      rfl
    have hkind : d.tcpState = .synSent ∨ d.tcpState = .synRecv := by
      rcases event_at f (run_rep hr) q with hsame | ⟨-, hslot⟩
      · exact absurd (hsame.trans hpre) hpost
      · rw [hpre] at hslot
        have hm := slot_moves hslot hd
        generalize d.tcpState = st at hm ⊢
        generalize f.input.op = op at hm
        cases hm with
        | listened => exact Or.inr rfl
        | connected => exact Or.inl rfl
    have hnoted : notedOf q [f] = 0 := by
      have hnot : ¬(Completed f ∧ eventKey f = q) := by
        rintro ⟨⟨hrecv, -⟩, rfl⟩
        rw [Core.stateOf, hpre] at hrecv
        cases hrecv
      simp [notedOf, hnot]
    have hstates : statesOf q [f] = [d.tcpState] := by
      simp [statesOf, hst]
    rw [hstates, hnoted, hst]
    refine ⟨⟨_, rfl, hkind⟩, by simpa using hlive d hd, List.pairwise_singleton .., ?_, by simp, by simp⟩
    intro st hst x hx
    cases hst
    exact Or.inl (List.mem_singleton.mp hx)
  | append_singleton xs e ih =>
    rw [← List.cons_append, ← List.append_assoc] at h
    have hlive := run_conn slot_live h q
    obtain ⟨hr, rfl⟩ := Machine.run_snoc.mp h
    obtain ⟨c, hc⟩ := Option.ne_none_iff_exists'.mp (hxs e (by simp))
    have hst : e.pre.stateOf q = some c.tcpState := by
      rw [Core.stateOf, hc]
      rfl
    have hlived := ih hr fun x hx => hxs x (List.mem_append_left _ hx)
    rw [hst] at hlived
    rw [← List.cons_append, notedOf_snoc]
    unfold statesOf at hlived ⊢
    rw [List.filterMap_append]
    cases hd : e.post.conn q with
    | none =>
      have hnone : e.post.stateOf q = none := by
        rw [Core.stateOf, hd]
        rfl
      have hnot : ¬(Completed e ∧ eventKey e = q) := by
        rintro ⟨⟨-, hest⟩, rfl⟩
        rw [hnone] at hest
        cases hest
      rw [if_neg hnot, hnone]
      simpa [hnone] using hlived.leave
    | some d =>
      have hst' : e.post.stateOf q = some d.tcpState := by
        rw [Core.stateOf, hd]
        rfl
      have hmoves : d.tcpState = c.tcpState ∨
          Moves e.input.env e.pre.tcp e.input.op (some c) d.tcpState := by
        rcases event_at e (run_rep hr) q with hsame | ⟨-, hslot⟩
        · rw [hc, hd] at hsame
          cases hsame
          exact Or.inl rfl
        · rw [hc] at hslot
          exact Or.inr (slot_moves hslot hd)
      have hcl := run_conn slot_live hr q c hc
      have hbefore : c.tcpState.Before d.tcpState := by
        rcases hmoves with hsame | hm
        · exact Or.inl hsame.symm
        · exact moves_before hm hcl
      have hrecv : d.tcpState = .synRecv → c.tcpState = .synRecv := by
        rcases hmoves with hsame | hm
        · exact fun h => hsame.symm.trans h
        · exact moves_synRecv hm
      have hm : (if Completed e ∧ eventKey e = q then 1 else 0) = 0 ∨
          (if Completed e ∧ eventKey e = q then 1 else 0) = 1 ∧ c.tcpState = .synRecv ∧
            d.tcpState = .established := by
        by_cases hcomp : Completed e ∧ eventKey e = q
        · refine Or.inr ⟨if_pos hcomp, ?_⟩
          obtain ⟨⟨h1, h2⟩, hq⟩ := hcomp
          rw [hq, hst] at h1
          rw [hq, hst'] at h2
          exact ⟨Option.some.inj h1, Option.some.inj h2⟩
        · exact Or.inl (if_neg hcomp)
      rw [hst']
      have hsnoc := hlived.snoc hbefore (hlive d hd) hm hrecv
      simpa [hst'] using hsnoc

/-- For every run and every connection of it, from the step that makes it to the one that takes
it out: it begins half open, it never goes back to a state it has left, and it is noted in the
statistics once at most. -/
theorem lives {ta xs : List (machine K).Event} {f : (machine K).Event} {q : Quad}
    (h : Machine.Run (ta ++ f :: xs) k) (hpre : f.pre.conn q = none) (hpost : f.post.conn q ≠ none)
    (hxs : ∀ x ∈ xs, x.pre.conn q ≠ none) :
    (∃ st, (statesOf q (f :: xs)).head? = some st ∧ (st = .synSent ∨ st = .synRecv)) ∧
    (∀ st ∈ statesOf q (f :: xs), st.Live) ∧
    (statesOf q (f :: xs)).Pairwise TcpState.Before ∧
    notedOf q (f :: xs) ≤ 1 := by
  have hl := run_lived h hpre hpost hxs
  exact ⟨hl.start, hl.live, hl.order, hl.once⟩

end

/-! ## On the host -/

theorem run_stats_peerOpens : ∃ (tr : List (machine rfcCksum).Event) (k : Core),
    tr.map (·.input) = peerOpens ∧ k.tcp.stats = statsOf 0 (completions tr) ∧
      k.tcp.stats.connectionCount = 1 := by
  have hsome : ((machine rfcCksum).replay host peerOpens).any
      (fun r => r.2.tcp.stats.connectionCount = 1) = true := by decide +kernel
  obtain ⟨⟨tr, k⟩, hr, hQ⟩ := (Option.any_eq_true ..).mp hsome
  exact ⟨tr, k, Machine.replay_inputs hr,
    run_stats (host_init rfcCksum) (Machine.replay_path hr), of_decide_eq_true hQ⟩

theorem lives_peerOpens : ∃ (f : (machine rfcCksum).Event) (xs : List _) (k : Core),
    Machine.Run (f :: xs) k ∧ xs.length = 1 ∧ k.stateOf peerQuad = some .established ∧
      (statesOf peerQuad (f :: xs)).Pairwise TcpState.Before ∧ notedOf peerQuad (f :: xs) ≤ 1 := by
  obtain ⟨tr, k, hr, hin, hQ⟩ := Machine.exists_replay (host_init rfcCksum) peerOpens
    (Q := fun r => r.1.head?.any (fun f => (f.pre.conn peerQuad).isNone &&
      (f.post.conn peerQuad).isSome) && r.1.tail.all (fun x => (x.pre.conn peerQuad).isSome) &&
      r.2.stateOf peerQuad = some .established) (by decide +kernel)
  cases tr with
  | nil => cases hin
  | cons f xs =>
    simp only [Bool.and_eq_true, List.head?_cons, Option.any_some, List.tail_cons,
      List.all_eq_true, decide_eq_true_eq] at hQ
    obtain ⟨⟨⟨hpre, hpost⟩, hxs⟩, hst⟩ := hQ
    have hlen := congrArg List.length hin
    have hr₀ : Machine.Run ([] ++ f :: xs) k := hr
    have hl := lives hr₀ (Option.isNone_iff_eq_none.mp hpre)
      (Option.isSome_iff_ne_none.mp hpost) fun x hx => Option.isSome_iff_ne_none.mp (hxs x hx)
    exact ⟨f, xs, k, hr, by simpa [peerOpens] using hlen, hst, hl.2.2⟩

end TcpDpdk

import TcpDpdk.Dispatch

/-!
# What uninitialised memory reaches

`rte_malloc` does not clear the object it returns, and creation leaves some fields of it as they
are. `unset_memory` compares two runs that differ in what was found there and in the clock: they
go the same way, and of the segments sent only the blanked fields may differ. `stamps_count` gives
the values of three of these; the other two are checksums.
-/

namespace TcpDpdk

/-! ## The handlers -/

/-- What a handler leaves, less the statistics. -/
def Ret.blank (r : Ret) : Nic × RteHash × Connection × Out :=
  (r.tcp.nic, r.tcp.rteHash, r.conn.blank, r.out.blank)

structure Tcp.Alike (t t' : Tcp) : Prop where
  nic : t.nic = t'.nic
  table : t.rteHash = t'.rteHash

section
variable {K : RteCksum} {a b : Env} {t t' u u' : Tcp} {c d : Connection} {s : Seg}

/-- What looks at no blanked field does not tell the connections apart. -/
theorem through_blank {α : Type} {g : Connection → α} (hg : ∀ c, g c = g c.blank)
    (h : c.blank = d.blank) : g c = g d := by
  rw [hg c, hg d, h]

theorem set_blank {g : Connection → Connection} (hg : ∀ c, (g c).blank = (g c.blank).blank)
    (h : c.blank = d.blank) : (g c).blank = (g d).blank :=
  through_blank (g := fun c => (g c).blank) hg h

theorem segmentCheck_blank (h : c.blank = d.blank) (n q : BitVec 32) :
    segmentCheck c n q = segmentCheck d n q :=
  through_blank (g := fun c => segmentCheck c n q) (fun _ => rfl) h

theorem ackCheck_blank (h : c.blank = d.blank) (n : BitVec 32) : ackCheck c n = ackCheck d n :=
  through_blank (g := fun c => ackCheck c n) (fun _ => rfl) h

theorem state_blank (h : c.blank = d.blank) : c.tcpState = d.tcpState :=
  through_blank (g := Connection.tcpState) (fun _ => rfl) h

theorem key_blank (h : c.blank = d.blank) : c.q = d.q :=
  through_blank (g := Connection.q) (fun _ => rfl) h

theorem ret_blank (hu : u.Alike u') (h : c.blank = d.blank) :
    Ret.blank ⟨u, c, {}⟩ = Ret.blank ⟨u', d, {}⟩ := by
  unfold Ret.blank
  dsimp only
  rw [hu.nic, hu.table, h]

theorem Tcp.Alike.del (ht : t.Alike t') {q q' : Quad} (hq : q = q') :
    (rteHashDelKey t q).Alike (rteHashDelKey t' q') := by
  subst hq
  exact ⟨ht.nic, congrArg (·.del q) ht.table⟩

section
variable (hm : a.mbuf = b.mbuf) (ht : t.Alike t')
include hm ht

theorem tx_blank (h : c.blank = d.blank) (data : Mem) (n : BitVec 64) :
    (tcpTxPackets K a t c data n).map (fun r => (r.1.blank, r.2.map Frame.blank)) =
      (tcpTxPackets K b t' d data n).map fun r => (r.1.blank, r.2.map Frame.blank) := by
  rw [tcpTxPackets_env hm ht.nic]
  exact tcpTxPackets_blank b t' data (set_blank (g := fun c => txHeaders K c n) (fun _ => rfl) h)

/-- A handler that sends what the connection is, and leaves what `g` makes of it. -/
theorem sent_blank (h : c.blank = d.blank) (data : Mem) (n : BitVec 64) {g : Connection → Connection}
    {v v' : Connection → Tcp} (hg : ∀ c, (g c).blank = (g c.blank).blank)
    (hv : ∀ {c d : Connection}, c.blank = d.blank → (v c).Alike (v' d)) (printed : List Byte) :
    ((tcpTxPackets K a t c data n).map fun (c, frames) =>
      (⟨v c, g c, { frames, printed }⟩ : Ret)).map Ret.blank =
    ((tcpTxPackets K b t' d data n).map fun (c, frames) =>
      (⟨v' c, g c, { frames, printed }⟩ : Ret)).map Ret.blank := by
  have htx := tx_blank (K := K) hm ht h data n
  generalize tcpTxPackets K a t c data n = x at htx ⊢
  generalize tcpTxPackets K b t' d data n = y at htx ⊢
  cases rel_of_map htx with
  | none => rfl
  | @some x y hxy =>
    obtain ⟨hc, hf⟩ := Prod.mk.inj hxy
    apply congrArg some
    unfold Ret.blank Out.blank
    dsimp only
    rw [(hv hc).nic, (hv hc).table, set_blank hg hc, hf]

theorem handleTcpSynRecv_blank (h : c.blank = d.blank) :
    (handleTcpSynRecv K a t c s).map Ret.blank = (handleTcpSynRecv K b t' d s).map Ret.blank := by
  unfold handleTcpSynRecv
  rw [segmentCheck_blank h, ackCheck_blank h]
  by_cases hseg : segmentCheck d s.size s.seq = false
  · rw [if_pos hseg, if_pos hseg]
    by_cases hsyn : s.tcpHdr.has rteTcpSynFlag = true
    · rw [if_pos hsyn, if_pos hsyn]
      have hun := set_blank (g := Connection.unsent) (fun _ => rfl) h
      exact sent_blank (g := id) hm ht hun _ _ (fun _ => rfl) (fun _ => ht) []
    · rw [if_neg hsyn, if_neg hsyn]
      exact congrArg some (ret_blank ht h)
  · rw [if_neg hseg, if_neg hseg]
    by_cases hack : ackCheck d s.ackn = true
    · rw [if_pos hack, if_pos hack]
      refine congrArg some (ret_blank ⟨ht.nic, ht.table⟩ ?_)
      exact set_blank (g := fun c => { c with tcpState := .established }) (fun _ => rfl) h
    · rw [if_neg hack, if_neg hack]
      exact congrArg some (ret_blank ht h)

theorem handleTcpSynSent_blank (h : c.blank = d.blank) :
    (handleTcpSynSent K a t c s).map Ret.blank = (handleTcpSynSent K b t' d s).map Ret.blank := by
  have hset := set_blank (g := fun c => { c with receiveSequenceSpace.nxt := s.seq }) (fun _ => rfl) h
  unfold handleTcpSynSent
  dsimp only
  rw [segmentCheck_blank hset, ackCheck_blank hset]
  split
  · refine sent_blank (g := id) hm ht ?_ _ _ (fun _ => rfl) (fun _ => ht) []
    refine set_blank (g := fun c => c.synAnswered s) (fun _ => rfl) ?_
    split
    · exact set_blank (g := fun c =>
        { c with tcpState := .established, sendSequenceSpace.una := s.ackn + 1 }) (fun _ => rfl) hset
    · exact hset
  · exact congrArg some (ret_blank ht hset)

theorem handleTcpEstablish_blank (h : c.blank = d.blank) :
    (handleTcpEstablish K a t c s).map Ret.blank =
      (handleTcpEstablish K b t' d s).map Ret.blank := by
  unfold handleTcpEstablish
  rw [segmentCheck_blank h]
  split
  · split
    · have hfin := set_blank (g := fun c => c.finAnswered s) (fun _ => rfl) h
      exact sent_blank (g := fun c => { c with tcpState := .lastAck }) hm ht hfin _ _ (fun _ => rfl)
        (fun _ => ht) []
    · split
      · refine congrArg some (ret_blank ht ?_)
        exact set_blank (g := fun c => { c with sendSequenceSpace.nxt := s.ackn }) (fun _ => rfl) h
      · have hdata := set_blank (g := fun c => c.dataAnswered s) (fun _ => rfl) h
        exact sent_blank (g := id) hm ht hdata _ _ (fun _ => rfl) (fun _ => ht) _
  · exact congrArg some (ret_blank ht h)

theorem handleTcpFinWait1_blank (h : c.blank = d.blank) :
    (handleTcpFinWait1 K a t c s).map Ret.blank =
      (handleTcpFinWait1 K b t' d s).map Ret.blank := by
  unfold handleTcpFinWait1
  rw [segmentCheck_blank h, ackCheck_blank h]
  split
  · exact congrArg some (ret_blank ht h)
  · split
    · have hfin := set_blank (g := fun c => { c.finAcked s with tcpState := .finWait2 })
        (fun _ => rfl) h
      exact sent_blank (g := id) (v := fun c => rteHashDelKey t c.q) hm ht hfin _ _ (fun _ => rfl)
        (fun hc => ht.del (key_blank hc)) []
    · exact congrArg some (ret_blank ht h)

theorem handleTcpFinWait2_blank (h : c.blank = d.blank) :
    (handleTcpFinWait2 K a t c s).map Ret.blank =
      (handleTcpFinWait2 K b t' d s).map Ret.blank := by
  unfold handleTcpFinWait2
  rw [segmentCheck_blank h]
  split
  · exact congrArg some (ret_blank ht h)
  · have hfin := set_blank (g := fun c => c.finAcked s) (fun _ => rfl) h
    exact sent_blank (g := id) (v := fun c => rteHashDelKey t c.q) hm ht hfin _ _ (fun _ => rfl)
      (fun hc => ht.del (key_blank hc)) []

theorem rxSwitch_blank (h : c.blank = d.blank) :
    (rxSwitch K a t c s).map Ret.blank = (rxSwitch K b t' d s).map Ret.blank := by
  unfold rxSwitch
  rw [state_blank h]
  split
  · exact handleTcpSynRecv_blank hm ht h
  · exact handleTcpEstablish_blank hm ht h
  · have hclose := set_blank (g := fun c => { c with tcpState := .close }) (fun _ => rfl) h
    have hdel := ht.del (key_blank h)
    exact congrArg some (ret_blank hdel hclose)
  · exact handleTcpSynSent_blank hm ht h
  · exact handleTcpFinWait1_blank hm ht h
  · exact handleTcpFinWait2_blank hm ht h
  · exact congrArg some (ret_blank ht h)

end

end

/-! ## Two cores -/

structure Core.Alike (k k' : Core) : Prop where
  tcp : k.tcp.Alike k'.tcp
  heap : k.heap.Alike Connection.blank k'.heap

/-- The same operation where memory, buffers and the gaps of the key are the same; what the
memory contains and the clock may differ. -/
structure Input.Alike (i j : Input) : Prop where
  op : i.op = j.op
  mbuf : i.env.mbuf = j.env.mbuf
  pad : i.env.pad = j.env.pad
  object : i.env.object.isSome = j.env.object.isSome

def StepAlike (x y : Core × Out) : Prop := x.1.Alike y.1 ∧ x.2.blank = y.2.blank

section
variable {K : RteCksum} {a b : Env} {k k' : Core} {s : Seg}

theorem objects_alike (h : a.object.isSome = b.object.isSome) :
    (a.object = none ∧ b.object = none) ∨ ∃ g g', a.object = some g ∧ b.object = some g' := by
  cases ha : a.object with
  | none =>
    rw [ha] at h
    exact Or.inl ⟨rfl, Option.isSome_eq_false_iff.mp h.symm |> Option.isNone_iff_eq_none.mp⟩
  | some g =>
    rw [ha] at h
    obtain ⟨g', hg'⟩ := Option.isSome_iff_exists.mp h.symm
    exact Or.inr ⟨g, g', rfl, hg'⟩

section
variable (hk : k.Alike k')
include hk

theorem read_alike (p : Nat) : (k.heap.read p = none ∧ k'.heap.read p = none) ∨
    ∃ c d, k.heap.read p = some c ∧ k'.heap.read p = some d ∧ c.blank = d.blank := by
  have h := rel_of_map (hk.heap.read p)
  generalize k.heap.read p = x at h ⊢
  generalize k'.heap.read p = y at h ⊢
  cases h with
  | none => exact Or.inl ⟨rfl, rfl⟩
  | some h => exact Or.inr ⟨_, _, rfl, rfl, h⟩

theorem alloc_alike (q : Quad) {c d : Connection} (h : c.blank = d.blank) :
    Core.Alike ⟨{ k.tcp with rteHash := k.tcp.rteHash.add q k.heap.next }, k.heap.alloc c⟩
      ⟨{ k'.tcp with rteHash := k'.tcp.rteHash.add q k'.heap.next }, k'.heap.alloc d⟩ := by
  refine ⟨⟨hk.tcp.nic, ?_⟩, hk.heap.alloc h⟩
  rw [hk.tcp.table, hk.heap.next]

theorem rxDispatch_alike (hm : a.mbuf = b.mbuf) (ho : a.object.isSome = b.object.isSome) :
    Option.Rel StepAlike (rxDispatch K a k s) (rxDispatch K b k' s) := by
  unfold rxDispatch
  rw [hk.tcp.table]
  cases hl : k'.tcp.rteHash.lookup s.q with
  | none =>
    dsimp only
    unfold handleTcpListen
    by_cases hf : s.tcpHdr.tcpFlags ≠ rteTcpSynFlag
    · rw [if_pos hf, if_pos hf]
      exact .some ⟨hk, rfl⟩
    · rw [if_neg hf, if_neg hf]
      obtain ⟨ha, hb⟩ | ⟨g, g', ha, hb⟩ := objects_alike ho
      · rw [ha, hb]
        exact .none
      · rw [ha, hb]
        have htx := tcpTxPackets_blank (K := K) b k'.tcp s.data (c := listenConnection g s)
          (d := listenConnection g' s) (n := sizeT s.size) rfl
        rw [← tcpTxPackets_env hm hk.tcp.nic] at htx
        dsimp only
        generalize tcpTxPackets K a k.tcp (listenConnection g s) s.data (sizeT s.size) = x at htx ⊢
        generalize tcpTxPackets K b k'.tcp (listenConnection g' s) s.data (sizeT s.size) = y at htx ⊢
        cases rel_of_map htx with
        | none => exact .none
        | some hxy =>
          obtain ⟨hc, hfr⟩ := Prod.mk.inj hxy
          have hadd := alloc_alike hk s.q hc
          rw [hk.tcp.table] at hadd
          refine .some ⟨hadd, ?_⟩
          unfold Out.blank
          rw [hfr]
  | some p =>
    dsimp only
    obtain ⟨hr, hr'⟩ | ⟨c, d, hr, hr', h⟩ := read_alike hk p
    · rw [hr, hr']
      exact .none
    · rw [hr, hr']
      dsimp only
      have hsw := rxSwitch_blank (K := K) (s := s) hm hk.tcp h
      rw [state_blank h]
      generalize rxSwitch K a k.tcp c s = x at hsw ⊢
      generalize rxSwitch K b k'.tcp d s = y at hsw ⊢
      cases rel_of_map hsw with
      | none => exact .none
      | @some x y hxy =>
        simp only [Ret.blank, Prod.mk.injEq] at hxy
        obtain ⟨hn, htab, hc, hout⟩ := hxy
        by_cases hst : d.tcpState = .lastAck
        · simp only [hst, if_true]
          exact .some ⟨⟨Tcp.Alike.del ⟨hn, htab⟩ rfl, hk.heap.free p⟩, hout⟩
        · simp only [if_neg hst]
          exact .some ⟨⟨⟨hn, htab⟩, hk.heap.write hr hr' hc⟩, hout⟩

theorem cliFlow_alike {q : Quad} {f g : Connection → Option (Connection × List Frame)}
    (hfg : ∀ {c d}, c.blank = d.blank → (f c).map (fun r => (r.1.blank, r.2.map Frame.blank)) =
      (g d).map fun r => (r.1.blank, r.2.map Frame.blank)) :
    Option.Rel StepAlike (cliFlow k q f) (cliFlow k' q g) := by
  unfold cliFlow
  rw [hk.tcp.table]
  cases k'.tcp.rteHash.lookup q with
  | none => exact .some ⟨hk, rfl⟩
  | some p =>
    dsimp only
    obtain ⟨hr, hr'⟩ | ⟨c, d, hr, hr', h⟩ := read_alike hk p
    · rw [hr, hr']
      exact .none
    · rw [hr, hr']
      dsimp only
      have hact := hfg h
      generalize f c = x at hact ⊢
      generalize g d = y at hact ⊢
      cases rel_of_map hact with
      | none => exact .none
      | @some x y hxy =>
        obtain ⟨hc, hfr⟩ := Prod.mk.inj hxy
        refine .some ⟨⟨hk.tcp, hk.heap.write hr hr' hc⟩, ?_⟩
        unfold Out.blank
        rw [hfr]

theorem activeConnect_alike (hm : a.mbuf = b.mbuf) (hp : a.pad = b.pad)
    (ho : a.object.isSome = b.object.isSome) (dip : BitVec 32) (dport sport : BitVec 16) :
    Option.Rel StepAlike (activeConnect K a k dip dport sport)
      (activeConnect K b k' dip dport sport) := by
  unfold activeConnect
  rw [hk.tcp.nic, hk.tcp.table, hp]
  generalize connectQuad k'.tcp.nic b.pad dip dport sport = q
  dsimp only
  cases k'.tcp.rteHash.lookup q with
  | some p => exact .some ⟨hk, rfl⟩
  | none =>
    obtain ⟨ha, hb⟩ | ⟨g, g', ha, hb⟩ := objects_alike ho
    · rw [ha, hb]
      exact .none
    · rw [ha, hb]
      have htx := tcpTxPackets_blank (K := K) b k'.tcp Mem.null (c := connectConnection g q)
        (d := connectConnection g' q) (n := 0) rfl
      rw [← tcpTxPackets_env hm hk.tcp.nic] at htx
      dsimp only
      generalize tcpTxPackets K a k.tcp (connectConnection g q) Mem.null 0 = x at htx ⊢
      generalize tcpTxPackets K b k'.tcp (connectConnection g' q) Mem.null 0 = y at htx ⊢
      cases rel_of_map htx with
      | none => exact .none
      | some hxy =>
        obtain ⟨hc, hfr⟩ := Prod.mk.inj hxy
        have hadd := alloc_alike hk q hc
        rw [hk.tcp.table] at hadd
        refine .some ⟨hadd, ?_⟩
        unfold Out.blank
        rw [hfr]

end

theorem step_alike (hk : k.Alike k') {i j : Input} (h : i.Alike j) :
    Option.Rel StepAlike (step K k i) (step K k' j) := by
  obtain ⟨op, a⟩ := i
  obtain ⟨op', b⟩ := j
  obtain ⟨rfl, hm, hp, ho⟩ := h
  dsimp only at hm hp ho
  cases op with
  | rx p =>
    simp only [step, tcpRxPacket]
    rw [hk.tcp.nic, hp]
    cases rxSegment k'.tcp.nic b.pad p with
    | none => exact .some ⟨hk, rfl⟩
    | some s => exact rxDispatch_alike hk hm ho
  | connect dip dport sport => exact activeConnect_alike hk hm hp ho dip dport sport
  | close q =>
    simp only [step]
    rw [hp]
    apply cliFlow_alike hk
    intro c d h
    have htx := tx_blank (K := K) hm hk.tcp (set_blank (g := Connection.finRaised) (fun _ => rfl) h)
      Mem.null 0
    unfold activeClose
    generalize tcpTxPackets K a k.tcp c.finRaised Mem.null 0 = x at htx ⊢
    generalize tcpTxPackets K b k'.tcp d.finRaised Mem.null 0 = y at htx ⊢
    cases rel_of_map htx with
    | none => rfl
    | some hxy =>
      obtain ⟨hc, hfr⟩ := Prod.mk.inj hxy
      refine congrArg some (Prod.ext ?_ hfr)
      exact set_blank (g := fun c => { c with tcpState := .finWait1 }) (fun _ => rfl) hc
  | send q data =>
    simp only [step]
    rw [hp]
    apply cliFlow_alike hk
    intro c d h
    exact tx_blank hm hk.tcp (set_blank (g := fun c => c.loaded _ _) (fun _ => rfl) h) _ _

end

/-- For every list of operations, whatever the memory given out contained and whatever the clock
said: both runs stop at the same operation or none, the tables and what the connections are
stay the same, and the segments sent differ in the fields blanked at most. -/
theorem unset_memory {K : RteCksum} (nic : Nic) (last last' : BitVec 64) {is js : List Input}
    (h : List.Forall₂ Input.Alike is js) :
    Option.Rel (fun x y => x.2.Alike y.2 ∧
        List.Forall₂ (fun out out' => out.blank = out'.blank) (x.1.map (·.out)) (y.1.map (·.out)))
      ((machine K).replay (initializeTcp nic last) is)
      ((machine K).replay (initializeTcp nic last') js) := by
  have hstart : (initializeTcp nic last).Alike (initializeTcp nic last') :=
    ⟨⟨rfl, rfl⟩, rfl, fun _ => rfl⟩
  have hstep : ∀ {k k' : Core} {i j : Input}, k.Alike k' → i.Alike j →
      Option.Rel (fun x y => x.1.Alike y.1 ∧ x.2.blank = y.2.blank) ((machine K).step k i)
        ((machine K).step k' j) := fun hk hi => step_alike hk hi
  exact Machine.lockstep hstep h hstart

/-! ## What gets out -/

/-- What a frame shows of the object its connection was made in, and of the frames before it. -/
structure Stamp where
  typeOfService : Byte
  tcpUrp : BitVec 16
  packetId : BitVec 16
  deriving DecidableEq

def stampOf (ip : Ipv4Hdr) (tcp : TcpHdr) : Stamp :=
  ⟨ip.typeOfService, tcp.tcpUrp, rteBeToCpu16 ip.packetId⟩

def Connection.stamp (c : Connection) : Stamp := stampOf c.rteIpv4Hdr c.rteTcpHdr

def Frame.stamp (f : Frame) : Stamp := stampOf f.ipv4 f.tcp

def Stamp.after (x : Stamp) (n : Nat) : Stamp := { x with packetId := x.packetId + BitVec.ofNat 16 n }

/-- The frames sent for `q`, in order. -/
def framesOf {K : RteCksum} (q : Quad) (tr : List (machine K).Event) : List Frame :=
  tr.flatMap fun e => if eventKey e = q then e.out.frames else []

section
variable {K : RteCksum} {env : Env} {t : Tcp} {c : Connection} {o o' : Option Connection} {out : Out}

theorem stamp_after_zero (x : Stamp) : x.after 0 = x := by
  simp [Stamp.after]

theorem stamp_after_add (x : Stamp) (m n : Nat) : (x.after m).after n = x.after (m + n) := by
  unfold Stamp.after
  rw [BitVec.ofNat_add, add_assoc]

theorem txHeaders_stamp (c : Connection) (n : BitVec 64) :
    (txHeaders K c n).stamp = c.stamp.after 1 := by
  simp [Connection.stamp, stampOf, txHeaders, Stamp.after]

theorem txFlag_stamp (flag : Byte) (c : Connection) : (txFlag flag c).stamp = c.stamp := by
  unfold txFlag
  split <;> rfl

theorem sent_stamp (c : Connection) (n : BitVec 64) : (c.sent K n).stamp = c.stamp.after 1 := by
  unfold Connection.sent
  rw [txFlag_stamp, txFlag_stamp, txHeaders_stamp]

theorem sendP_stamp {data : Mem} {n : BitVec 64} {frames : List Frame}
    (h : sendP env t (txHeaders K c n) data n = some frames) :
    frames.map Frame.stamp = if env.mbuf then [c.stamp.after 1] else [] := by
  rcases sendP_some h with ⟨rfl, hm⟩ | ⟨rfl, hm, -⟩
  · rw [hm]
    rfl
  · have hx : (txFrame t (txHeaders K c n) data n).stamp = c.stamp.after 1 := txHeaders_stamp c n
    rw [hm, List.map_singleton, hx]
    rfl

/-- What a step leaves of the stamp `x`; `b` tells whether it transmitted. -/
structure Imprint (x : Stamp) (b mbuf : Bool) (o' : Option Connection) (frames : List Frame) :
    Prop where
  conn : ∀ c, o' = some c → c.stamp = x.after b.toNat
  frames : frames.map Frame.stamp = if b && mbuf then [x.after 1] else []

theorem imprint_none {x : Stamp} {mbuf : Bool} (h : ∀ c, o' = some c → c.stamp = x) :
    Imprint x false mbuf o' [] := by
  refine ⟨fun c hc => ?_, rfl⟩
  rw [h c hc, Bool.toNat_false, stamp_after_zero]

theorem imprint_sent {x : Stamp} {data : Mem} {n : BitVec 64} {frames : List Frame}
    (h : sendP env t (txHeaders K c n) data n = some frames) (hx : c.stamp = x)
    (ho : ∀ d, o' = some d → d.stamp = (c.sent K n).stamp) : Imprint x true env.mbuf o' frames :=
  hx ▸ ⟨fun d hd => (ho d hd).trans (sent_stamp c n), sendP_stamp h⟩

/-- The connection is left as it was sent, or gone. -/
theorem imprint_left {x : Stamp} {data : Mem} {n : BitVec 64} {frames : List Frame}
    (h : sendP env t (txHeaders K c n) data n = some frames) (hx : c.stamp = x)
    (ho : o' = some (c.sent K n) ∨ o' = none) : Imprint x true env.mbuf o' frames := by
  refine imprint_sent h hx fun d hd => ?_
  rcases ho with ho | ho <;> cases ho.symm.trans hd
  rfl

/-- The handler of the state answers the segment: it calls `tcp_tx_packets`. -/
def Connection.answers (c : Connection) (s : Seg) : Bool :=
  match c.tcpState with
  | .synSent => true
  | .synRecv => !segmentCheck c s.size s.seq && s.tcpHdr.has rteTcpSynFlag
  | .established => segmentCheck c s.size s.seq && (s.tcpHdr.has rteTcpFinFlag || s.size ≠ 0)
  | .finWait1 => segmentCheck c s.size s.seq && ackCheck c s.ackn
  | .finWait2 => segmentCheck c s.size s.seq
  | .lastAck | .timeWait | .close | .closeWait | .listen | .closing | .maxStates => false

def opTransmits (nic : Nic) (pad : BitVec 32) (op : Op) (o : Option Connection) : Bool :=
  match op, o with
  | .rx p, none => (rxSegment nic pad p).any fun s => s.tcpHdr.tcpFlags = rteTcpSynFlag
  | .rx p, some c => (rxSegment nic pad p).any c.answers
  | .connect _ _ _, none => true
  | .connect _ _ _, some _ => false
  | .close _, none => false
  | .close _, some _ => true
  | .send _ _, none => false
  | .send _ _, some _ => true

/-- The step calls `tcp_tx_packets` for `q`, be there a buffer or not. -/
def transmits (q : Quad) (e : (machine K).Event) : Bool :=
  eventKey e = q && opTransmits e.pre.tcp.nic e.input.env.pad e.input.op (e.pre.conn q)

theorem rx_imprint {s : Seg} (h : Rx K env t c s o' out) :
    Imprint c.stamp (c.answers s) env.mbuf o' out.frames := by
  have silent : ∀ {d : Connection}, c.answers s = false → d.stamp = c.stamp →
      Imprint c.stamp (c.answers s) env.mbuf (some d) [] := by
    intro d hn hd
    rw [hn]
    exact imprint_none fun e he => by cases he; exact hd
  have answer : ∀ {frames : List Frame}, c.answers s = true →
      Imprint c.stamp true env.mbuf o' frames → Imprint c.stamp (c.answers s) env.mbuf o' frames := by
    intro frames hn h
    rw [hn]
    exact h
  unfold Connection.answers at silent answer ⊢
  cases h with
  | ignored ha =>
    refine silent ?_ rfl
    unfold Connection.accepts at ha
    cases hst : c.tcpState with
    | synRecv =>
      simp only [hst] at ha ⊢
      by_cases hsc : segmentCheck c s.size s.seq = true
      · simp [hsc]
      · rw [if_neg hsc] at ha
        simp [hsc, ha]
    | established => simp only [hst] at ha ⊢; simp [ha]
    | finWait1 => simp only [hst] at ha ⊢; exact ha
    | finWait2 => simp only [hst] at ha ⊢; exact ha
    | synSent => simp [hst] at ha
    | lastAck => rfl
    | timeWait | close | closeWait | listen | closing | maxStates => rfl
  | synAgain hst hsc hf hp =>
    exact answer (by rw [hst]; simp [hsc, hf]) (imprint_left hp rfl (Or.inl rfl))
  | synAcked hst hsc _ => exact silent (by rw [hst]; simp [hsc]) rfl
  | @synAnswered d _ hst hd hp =>
    have hx : (d.synAnswered s).stamp = c.stamp := by
      rcases hd with ⟨-, rfl⟩ | ⟨-, rfl⟩ <;> rfl
    exact answer (by rw [hst]) (imprint_left hp hx (Or.inl rfl))
  | finAnswered hst hsc hf hp =>
    exact answer (by rw [hst]; simp [hsc, hf]) (imprint_sent hp rfl fun d hd => by cases hd; rfl)
  | acked hst hsc hf h0 => exact silent (by rw [hst]; simp [hf, h0]) rfl
  | dataAnswered hst hsc _ h0 hp =>
    refine answer ?_ (imprint_left hp rfl (Or.inl rfl))
    rw [hst]
    simp only [hsc, Bool.true_and, Bool.or_eq_true, decide_eq_true_eq]
    exact Or.inr h0
  | finAcked hst hsc hac hp =>
    exact answer (by rw [hst]; simp [hsc, hac]) (imprint_left hp rfl (Or.inr rfl))
  | finAcked2 hst hsc hp =>
    exact answer (by rw [hst]; exact hsc) (imprint_left hp rfl (Or.inr rfl))
  | closed hst =>
    rw [hst]
    exact imprint_none fun d hd => by cases hd

theorem slot_imprint {op : Op} (h : Slot K env t op (some c) o' out) :
    Imprint c.stamp (opTransmits t.nic env.pad op (some c)) env.mbuf o' out.frames := by
  cases h with
  | dropped hs =>
    simp only [opTransmits, hs, Option.any_none]
    exact imprint_none fun d hd => by cases hd; rfl
  | handled hs h =>
    simp only [opTransmits, hs, Option.any_some]
    exact rx_imprint h
  | present => exact imprint_none fun d hd => by cases hd; rfl
  | finSent hp => exact imprint_sent hp rfl fun d hd => by cases hd; rfl
  | dataSent hp => exact imprint_left hp rfl (Or.inl rfl)

theorem slot_born {op : Op} (h : Slot K env t op none o' out) (ho : o' ≠ none) :
    ∃ g, env.object = some g ∧
      Imprint g.stamp (opTransmits t.nic env.pad op none) env.mbuf o' out.frames := by
  cases h with
  | dropped _ => exact absurd rfl ho
  | unknown _ _ => exact absurd rfl ho
  | opened hs hf hg hp h =>
    refine ⟨_, hg, ?_⟩
    simp only [opTransmits, hs, Option.any_some, hf, decide_true]
    exact imprint_left hp rfl h
  | connected hg hp h => exact ⟨_, hg, imprint_left hp rfl h⟩
  | noClose => exact absurd rfl ho
  | noSend => exact absurd rfl ho

/-- The frames of `e` show the stamp `x` counted on by the transmissions up to and with `e`. -/
def ShowsStamp (q : Quad) (x : Stamp) (ys : List (machine K).Event) (e : (machine K).Event) : Prop :=
  eventKey e = q → e.out.frames.map Frame.stamp =
    if transmits q e && e.input.env.mbuf then [x.after ((ys ++ [e]).countP (transmits q))] else []

/-- One step more in the life of a connection. -/
theorem event_imprint {x : Stamp} {ys : List (machine K).Event} {e : (machine K).Event} {q : Quad}
    (hrep : e.pre.Rep) (hc : e.pre.conn q = some c)
    (hx : c.stamp = x.after (ys.countP (transmits q))) : ShowsStamp q x ys e ∧
      ∀ d, e.post.conn q = some d → d.stamp = x.after ((ys ++ [e]).countP (transmits q)) := by
  obtain ⟨hothers, hslot⟩ := event_slot e hrep
  unfold ShowsStamp
  rw [List.countP_append, List.countP_singleton]
  by_cases hq : eventKey e = q
  · subst hq
    rw [hc] at hslot
    have himp := slot_imprint hslot
    have hb : opTransmits e.pre.tcp.nic e.input.env.pad e.input.op (some c) =
        transmits (eventKey e) e := by simp [transmits, hc]
    rw [hb, hx] at himp
    obtain ⟨hconn, hframes⟩ := himp
    simp only [stamp_after_add] at hconn hframes
    cases hb : transmits (eventKey e) e with
    | false => rw [hb] at hconn hframes; exact ⟨fun _ => hframes, hconn⟩
    | true => rw [hb] at hconn hframes; exact ⟨fun _ => hframes, hconn⟩
  · have hno : transmits q e = false := by simp [transmits, hq]
    refine ⟨fun h => absurd h hq, fun d hd => ?_⟩
    rw [hothers q (Ne.symm hq), hc] at hd
    cases hd
    rw [hx, hno]
    rfl

theorem run_imprint {ta xs : List (machine K).Event} {f : (machine K).Event} {q : Quad} {k : Core}
    (h : Machine.Run (ta ++ f :: xs) k) (hpre : f.pre.conn q = none) (hpost : f.post.conn q ≠ none)
    (hxs : ∀ x ∈ xs, x.pre.conn q ≠ none) : ∃ g, f.input.env.object = some g ∧
      Machine.Meets (ShowsStamp q g.stamp) (f :: xs) ∧
      ∀ c, k.conn q = some c → c.stamp = g.stamp.after ((f :: xs).countP (transmits q)) := by
  induction xs using List.reverseRecOn generalizing k with
  | nil =>
    obtain ⟨hr, rfl⟩ := Machine.run_snoc.mp h
    obtain ⟨hothers, hslot⟩ := event_slot f (run_rep hr)
    have hq : eventKey f = q := by
      by_contra hq
      exact hpost ((hothers q (Ne.symm hq)).trans hpre)
    subst hq
    rw [hpre] at hslot
    obtain ⟨g, hg, hconn, hframes⟩ := slot_born hslot hpost
    have hb : opTransmits f.pre.tcp.nic f.input.env.pad f.input.op none =
        transmits (eventKey f) f := by simp [transmits, hpre]
    rw [hb] at hconn hframes
    refine ⟨g, hg, ?_, ?_⟩
    · rw [show [f] = [] ++ [f] from rfl, Machine.meets_snoc]
      refine ⟨fun _ _ _ ht => by simp at ht, fun _ => ?_⟩
      rw [List.nil_append, List.countP_singleton, hframes]
      cases transmits (eventKey f) f <;> rfl
    · rw [List.countP_singleton]
      cases hb : transmits (eventKey f) f with
      | false => rw [hb] at hconn; exact hconn
      | true => rw [hb] at hconn; exact hconn
  | append_singleton xs e ih =>
    rw [← List.cons_append, ← List.append_assoc] at h
    obtain ⟨hr, rfl⟩ := Machine.run_snoc.mp h
    obtain ⟨g, hg, hmeets, hst⟩ := ih hr fun x hx => hxs x (List.mem_append_left _ hx)
    obtain ⟨c, hc⟩ := Option.ne_none_iff_exists'.mp (hxs e (by simp))
    obtain ⟨hshows, hmore⟩ := event_imprint (run_rep hr) hc (hst c hc)
    rw [← List.cons_append]
    exact ⟨g, hg, Machine.meets_snoc.mpr ⟨hmeets, hshows⟩, hmore⟩

theorem stamps_sublist {q : Quad} {x : Stamp} {tr : List (machine K).Event}
    (h : Machine.Meets (ShowsStamp q x) tr) : ((framesOf q tr).map Frame.stamp).Sublist
      ((List.range (tr.countP (transmits q))).map fun i => x.after (i + 1)) := by
  induction tr using List.reverseRecOn with
  | nil => exact List.nil_sublist _
  | append_singleton tr e ih =>
    obtain ⟨hmeets, hshows⟩ := Machine.meets_snoc.mp h
    unfold ShowsStamp at hshows
    have hprefix := ih hmeets
    unfold framesOf at hprefix ⊢
    rw [List.countP_append, List.countP_singleton] at hshows ⊢
    rw [List.flatMap_append, List.flatMap_singleton, List.map_append, List.range_add,
      List.map_append]
    refine hprefix.append ?_
    by_cases hq : eventKey e = q
    · rw [if_pos hq, hshows hq]
      cases transmits q e with
      | false => exact List.nil_sublist _
      | true => cases e.input.env.mbuf <;> simp
    · rw [if_neg hq]
      exact List.nil_sublist _

theorem stamps_nodup (x : Stamp) {n : Nat} (h : n ≤ 65536) :
    ((List.range n).map fun i => (x.after (i + 1)).packetId).Nodup := by
  refine List.Nodup.map_on (fun i hi j hj he => ?_) List.nodup_range
  rw [List.mem_range] at hi hj
  have hadd := congrArg BitVec.toNat (add_left_cancel he)
  rw [BitVec.toNat_ofNat, BitVec.toNat_ofNat] at hadd
  omega

/-- For every run and every connection of it, from the step that makes it to the one that takes
it out: each step that transmits for it sends one segment if there is a buffer, and no other
step does; the segment of the `m`-th transmission, whether those before it had a buffer or
not, shows the type of service and the urgent pointer that were in the connection's memory
and the identification found there plus `m`. So none comes twice within 65536 transmissions. -/
theorem stamps_count {ta xs : List (machine K).Event} {f : (machine K).Event} {q : Quad} {k : Core}
    (h : Machine.Run (ta ++ f :: xs) k) (hpre : f.pre.conn q = none) (hpost : f.post.conn q ≠ none)
    (hxs : ∀ x ∈ xs, x.pre.conn q ≠ none) : ∃ g, f.input.env.object = some g ∧
      Machine.Meets (ShowsStamp q g.stamp) (f :: xs) ∧
      ((f :: xs).countP (transmits q) ≤ 65536 →
        ((framesOf q (f :: xs)).map (·.stamp.packetId)).Nodup) := by
  obtain ⟨g, hg, hmeets, -⟩ := run_imprint h hpre hpost hxs
  refine ⟨g, hg, hmeets, fun hlen => ?_⟩
  have hids := (stamps_sublist hmeets).map Stamp.packetId
  rw [List.map_map, List.map_map] at hids
  exact (stamps_nodup g.stamp hlen).sublist hids

end

/-! ## On the host -/

/-- `i` where memory comes as a used connection left it. -/
def Input.reused (i : Input) : Input := { i with env := { i.env with object := some used, clock := 9 } }

theorem unset_memory_peerOpens :
    Option.Rel (fun x y => x.2.Alike y.2 ∧
        List.Forall₂ (fun out out' => out.blank = out'.blank) (x.1.map (·.out)) (y.1.map (·.out)))
      ((machine rfcCksum).replay host peerOpens)
      ((machine rfcCksum).replay host (peerOpens.map Input.reused)) := by
  apply unset_memory hostNic 0 0
  exact .cons ⟨rfl, rfl, rfl, rfl⟩ (.cons ⟨rfl, rfl, rfl, rfl⟩ .nil)

theorem stamps_count_peerOpens : ∃ (f : (machine rfcCksum).Event) (xs : List _) (k : Core),
    Machine.Run (f :: xs) k ∧ xs.length = 1 ∧ f.input.env.object = some zeroed ∧
      Machine.Meets (ShowsStamp peerQuad zeroed.stamp) (f :: xs) := by
  obtain ⟨tr, k, hr, hin, hQ⟩ := Machine.exists_replay (host_init rfcCksum) peerOpens
    (Q := fun r => r.1.head?.any (fun f => (f.pre.conn peerQuad).isNone &&
      (f.post.conn peerQuad).isSome) && r.1.tail.all fun x => (x.pre.conn peerQuad).isSome)
    (by decide +kernel)
  cases tr with
  | nil => cases hin
  | cons f xs =>
    rw [Bool.and_eq_true] at hQ
    obtain ⟨hf, hxs⟩ := hQ
    simp only [List.head?_cons, Option.any_some, Bool.and_eq_true] at hf
    obtain ⟨hpre, hpost⟩ := hf
    have hlen : xs.length = 1 := by
      have hl := congrArg List.length hin
      simpa [peerOpens] using hl
    have hobj : f.input.env.object = some zeroed := by
      have hi : f.input = recv rteTcpSynFlag 0 0 [] := (List.cons.inj hin).1
      rw [hi]
      rfl
    have hr₀ : Machine.Run ([] ++ f :: xs) k := hr
    obtain ⟨g, hg, hmeets, -⟩ := stamps_count hr₀ (Option.isNone_iff_eq_none.mp hpre)
      (by rw [← Option.isSome_iff_ne_none]; exact hpost) fun x hx => by
        rw [← Option.isSome_iff_ne_none]
        exact List.all_eq_true.mp hxs x hx
    rw [hobj] at hg
    cases hg
    exact ⟨f, xs, k, hr, hlen, hobj, hmeets⟩

end TcpDpdk

import TcpDpdk.Closing
import TcpDpdk.Frames

/-!
# Numbering the stream

`snd.nxt` moves over SYN and FIN when they are sent. Over data it moves when the
peer acknowledges it, by taking the acknowledgment number. So the next thing sent
carries the number last acknowledged, and the stream is numbered rightly when the
user waits for each piece to be acknowledged before going on.
-/

namespace TcpDpdk

section
variable {K : RteCksum}

/-! ## What a step does to `snd.nxt` -/

def ackTaken (nic : Nic) (pad : BitVec 32) (op : Op) (o : Option Connection) :
    Option (BitVec 32) :=
  match opSegment nic pad op, o with
  | some s, some c =>
    if c.tcpState = .established ∧ segmentCheck c s.size s.seq = true ∧
        s.tcpHdr.has rteTcpFinFlag = false then
      some s.ackn
    else none
  | _, _ => none

def sendsFin (nic : Nic) (pad : BitVec 32) (op : Op) (o : Option Connection) : Bool :=
  match op, o with
  | .close _, some _ => true
  | .rx p, some c => (rxSegment nic pad p).any fun s =>
    c.tcpState = .established ∧ segmentCheck c s.size s.seq = true ∧
      s.tcpHdr.has rteTcpFinFlag = true
  | _, _ => false

def opData : Op → List Byte
  | .send _ data => data
  | _ => []

/-- A FIN sent counts one, and an acknowledgment that is taken is copied. -/
def nxtAfter (nic : Nic) (pad : BitVec 32) (op : Op) (o : Option Connection) (n : BitVec 32) :
    BitVec 32 :=
  if sendsFin nic pad op o then n + 1 else (ackTaken nic pad op o).getD n

theorem nxtAfter_untaken {nic : Nic} {pad : BitVec 32} {p : Packet} {s : Seg} {c : Connection}
    (hs : rxSegment nic pad p = some s)
    (h : c.tcpState = .established → segmentCheck c s.size s.seq = false) (n : BitVec 32) :
    nxtAfter nic pad (.rx p) (some c) n = n := by
  have hno : ¬(c.tcpState = .established ∧ segmentCheck c s.size s.seq = true) := by
    rintro ⟨hst, hsc⟩
    cases (h hst).symm.trans hsc
  simp only [nxtAfter, sendsFin, ackTaken, opSegment, hs, Option.any_some, ← and_assoc, hno,
    false_and, decide_false, Bool.false_eq_true, ite_false, Option.getD_none]

theorem rx_nxt {env : Env} {t : Tcp} {p : Packet} {s : Seg} {c c' : Connection} {out : Out}
    (hs : rxSegment t.nic env.pad p = some s) (h : Rx K env t c s (some c') out) (hq : c.Quiet) :
    c'.sendSequenceSpace.nxt =
      nxtAfter t.nic env.pad (.rx p) (some c) c.sendSequenceSpace.nxt := by
  have other : ∀ {x}, c.tcpState = x → x ≠ .established →
      nxtAfter t.nic env.pad (.rx p) (some c) c.sendSequenceSpace.nxt = c.sendSequenceSpace.nxt :=
    fun hst hx => nxtAfter_untaken hs (fun h => absurd (hst.symm.trans h) hx) _
  cases h with
  | ignored ha =>
    rw [nxtAfter_untaken hs]
    intro hst
    unfold Connection.accepts at ha
    rw [hst] at ha
    exact ha
  | synAgain hst _ _ _ =>
    rw [other hst (by decide)]
    exact unsent_nxt hq
  | synAcked hst _ _ =>
    rw [other hst (by decide)]
  | @synAnswered d _ hst hd _ =>
    rw [other hst (by decide), sent_nxt_plain (synAnswered_quiet d s)]
    rcases hd with ⟨-, rfl⟩ | ⟨-, rfl⟩ <;> rfl
  | finAnswered hst hsc hfin _ =>
    have hsent : ((c.finAnswered s).sent K (sizeT s.size)).sendSequenceSpace.nxt =
        c.sendSequenceSpace.nxt + 1 :=
      sent_nxt_flags (c := c.finAnswered s) (f := rteTcpFinFlag ||| rteTcpAckFlag) rfl (by decide)
    simpa [nxtAfter, sendsFin, hs, hst, hsc, hfin] using hsent
  | acked hst hsc hfin _ =>
    simp [nxtAfter, sendsFin, ackTaken, opSegment, hs, hst, hsc, hfin]
  | dataAnswered hst hsc hfin _ _ =>
    rw [sent_nxt_plain (dataAnswered_quiet c s)]
    simp [nxtAfter, sendsFin, ackTaken, opSegment, hs, hst, hsc, hfin, Connection.dataAnswered]

theorem slot_nxt {env : Env} {t : Tcp} {op : Op} {c c' : Connection} {out : Out}
    (h : Slot K env t op (some c) (some c') out) (hq : c.Quiet) :
    c'.sendSequenceSpace.nxt = nxtAfter t.nic env.pad op (some c) c.sendSequenceSpace.nxt := by
  cases h with
  | dropped hs => simp [nxtAfter, sendsFin, ackTaken, opSegment, hs]
  | handled hs hrx => exact rx_nxt hs hrx hq
  | present => rfl
  | finSent _ => exact finRaised_nxt c 0
  | dataSent _ => exact sent_nxt_plain (loaded_quiet c _ _)

theorem slot_made {env : Env} {t : Tcp} {op : Op} {c : Connection} {out : Out}
    (h : Slot K env t op none (some c) out) : c.sendSequenceSpace.nxt = iss + 1 := by
  generalize ho : some c = o at h
  cases h with
  | dropped _ => cases ho
  | unknown _ _ => cases ho
  | @opened _ s g _ _ _ _ _ _ h =>
    rcases h with h | h <;> cases ho.trans h
    exact sent_nxt_flags (c := listenConnection g s) (f := rteTcpSynFlag ||| rteTcpAckFlag) rfl
      (by decide)
  | connected _ _ h =>
    rcases h with h | h <;> cases ho.trans h
    exact sent_nxt_flags (f := rteTcpSynFlag) rfl (by decide)
  | noClose => cases ho
  | noSend => cases ho

/-! ## The history of a connection -/

def Makes (q : Quad) (e : (machine K).Event) : Prop := e.pre.conn q = none ∧ e.post.conn q ≠ none

abbrev SinceMade (tr : List (machine K).Event) (q : Quad) (xs : List (machine K).Event) : Prop :=
  Machine.Since (Makes q) (InTable q) tr xs

theorem sinceMade_of {t xs : List (machine K).Event} {a : (machine K).Event} {q : Quad}
    (hnew : (a.pre.conn q).isNone) (hin : ∀ x ∈ a :: xs, (x.post.conn q).isSome) :
    SinceMade (t ++ a :: xs) q xs := by
  have there : ∀ x ∈ a :: xs, x.post.conn q ≠ none := fun x hx =>
    Option.isSome_iff_ne_none.mp (hin x hx)
  exact ⟨t, a, rfl, ⟨Option.isNone_iff_eq_none.mp hnew, there a (by simp)⟩, fun x hx =>
    there x (List.mem_cons_of_mem _ hx)⟩

/-- What the making of a connection brings about and each of its steps keeps, holds of it with
its history. -/
theorem sinceMade_conn {q : Quad} {J : List (machine K).Event → Connection → Prop}
    (hmade : ∀ (f : (machine K).Event) c,
      Slot K f.input.env f.pre.tcp f.input.op none (some c) f.out → J [] c)
    (hother : ∀ xs (e : (machine K).Event) c, eventKey e ≠ q → J xs c → J (xs ++ [e]) c)
    (hslot : ∀ xs (e : (machine K).Event) c c', eventKey e = q → e.pre.conn q = some c → c.Quiet →
      Slot K e.input.env e.pre.tcp e.input.op (some c) (some c') e.out → J xs c →
        J (xs ++ [e]) c')
    {tr xs : List (machine K).Event} {k : Core} (h : Machine.Run tr k) (hs : SinceMade tr q xs) :
    ∃ c, k.conn q = some c ∧ J xs c := by
  refine Machine.Run.since (J := fun xs k => ∃ c, k.conn q = some c ∧ J xs c) ?_ ?_ h hs
  · rintro tr f hr ⟨hno, hin⟩
    obtain ⟨c, hc⟩ := Option.ne_none_iff_exists'.mp hin
    rcases event_at f (run_rep hr) q with hsame | ⟨-, hstep⟩
    · cases hc.symm.trans (hsame.trans hno)
    · rw [hno, hc] at hstep
      exact ⟨c, hc, hmade f c hstep⟩
  · rintro tr xs e hr hin ⟨c, hc, hJ⟩
    obtain ⟨c', hc'⟩ := Option.ne_none_iff_exists'.mp hin
    refine ⟨c', hc', ?_⟩
    by_cases hq : eventKey e = q
    · subst hq
      have hstep := (event_slot e (run_rep hr)).2
      rw [hc, hc'] at hstep
      exact hslot xs e c c' rfl hc (run_quiet hr _ c hc) hstep hJ
    · cases hc'.symm.trans (((event_slot e (run_rep hr)).1 q (Ne.symm hq)).trans hc)
      exact hother xs e c hq hJ

def sentIn (q : Quad) (e : (machine K).Event) : List Byte :=
  if eventKey e = q then opData e.input.op else []

def stream (q : Quad) (xs : List (machine K).Event) : List Byte := xs.flatMap (sentIn q)

def finIn (q : Quad) (e : (machine K).Event) : Bool :=
  eventKey e = q && sendsFin e.pre.tcp.nic e.input.env.pad e.input.op (e.pre.conn q)

/-- The number after the SYN at first, then the acknowledgment number last taken and
one for each FIN sent since. -/
def nextNumber (q : Quad) (xs : List (machine K).Event) : BitVec 32 :=
  xs.foldl
    (fun n e =>
      if eventKey e = q then
        nxtAfter e.pre.tcp.nic e.input.env.pad e.input.op (e.pre.conn q) n
      else n)
    (iss + 1)

theorem nxt_nextNumber {tr xs : List (machine K).Event} {k : Core} (h : Machine.Run tr k) {q : Quad}
    (hs : SinceMade tr q xs) :
    ∃ c, k.conn q = some c ∧ c.sendSequenceSpace.nxt = nextNumber q xs := by
  refine sinceMade_conn (J := fun xs c => c.sendSequenceSpace.nxt = nextNumber q xs) ?_ ?_ ?_ h hs
  · exact fun f c hslot => slot_made hslot
  · intro xs e c hq hn
    unfold nextNumber at hn ⊢
    rw [List.foldl_append, List.foldl_cons, List.foldl_nil, ← hn, if_neg hq]
  · intro xs e c c' hq hc hquiet hslot hn
    unfold nextNumber at hn ⊢
    rw [List.foldl_append, List.foldl_cons, List.foldl_nil, ← hn, if_pos hq, hc]
    exact slot_nxt hslot hquiet

/-! ## The numbers on the frames -/

def Frame.seq (f : Frame) : BitVec 32 := rteBeToCpu32 f.tcp.sentSeq

theorem sendP_seq {env : Env} {t : Tcp} {c : Connection} {data : Mem} {n m : BitVec 64}
    {frames : List Frame} (h : sendP env t (txHeaders K c n) data m = some frames) :
    ∀ f ∈ frames, f.seq = c.sendSequenceSpace.nxt ∧ f.payload = data.bytes m.toNat ∧
      m.msb = false := by
  intro f hf
  rcases sendP_some h with ⟨rfl, -⟩ | ⟨rfl, -, hm⟩
  · cases hf
  · rw [List.mem_singleton] at hf
    subst hf
    exact ⟨by simp [Frame.seq, txFrame, txHeaders], rfl, hm⟩

theorem sendP_has {env : Env} {t : Tcp} {c : Connection} {data : Mem} {n m : BitVec 64}
    {frames : List Frame} (h : sendP env t (txHeaders K c n) data m = some frames) (flag : Byte) :
    ∀ f ∈ frames, f.tcp.has flag = c.rteTcpHdr.has flag := by
  intro f hf
  rcases sendP_some h with ⟨rfl, -⟩ | ⟨rfl, -, -⟩
  · cases hf
  · rw [List.mem_singleton] at hf
    subst hf
    rfl

theorem sizeT_eq_zero {size : BitVec 32} : (sizeT size).toNat = 0 ↔ size = 0 := by
  constructor
  · intro h
    have hz : sizeT size = 0 := BitVec.eq_of_toNat_eq h
    apply BitVec.eq_of_toInt_eq
    rw [← sizeT_toInt, hz]
    rfl
  · rintro rfl
    rfl

theorem sizeT_ofNat (size : BitVec 32) : BitVec.ofNat 32 (sizeT size).toNat = size := by
  rw [BitVec.ofNat_toNat]
  unfold sizeT
  ext i hi
  have hlt : i < 64 := by omega
  rw [BitVec.getElem_setWidth, BitVec.getLsbD_signExtend, if_pos hi, decide_eq_true hlt,
    Bool.true_and, BitVec.getLsbD_eq_getElem hi]

theorem sizeT_mod {m : Nat} (h : (sizeT (BitVec.ofNat 32 m)).msb = false) :
    (sizeT (BitVec.ofNat 32 m)).toNat = m % 2 ^ 32 ∧ m % 2 ^ 32 < 2 ^ 31 := by
  rw [sizeT_msb, decide_eq_false_iff_not, Int.not_lt] at h
  have hs := sizeT_toNat h
  have hm : (BitVec.ofNat 32 m).msb = false := by
    rw [BitVec.msb_eq_toInt, decide_eq_false_iff_not, Int.not_lt]
    exact h
  have hlt := BitVec.toNat_lt_of_msb_false hm
  rw [BitVec.toInt_eq_toNat_of_msb hm, BitVec.toNat_ofNat] at hs
  rw [BitVec.toNat_ofNat] at hlt
  exact ⟨Int.ofNat_inj.mp hs, hlt⟩

theorem tokenMem_eq {l : List Byte} {m : Nat} : (tokenMem l).bytes m = l ↔ m = l.length := by
  constructor
  · intro h
    have := congrArg List.length h
    rwa [Mem.length_bytes] at this
  · intro h
    subst h
    refine List.ext_getElem (by simp) fun i h₁ h₂ => ?_
    simp [Mem.bytes, tokenMem, h₂]

/-! ## The FINs -/

/-- The number the FIN of a frame consumes, the one after its data. -/
def Frame.finAt (f : Frame) : BitVec 32 := f.seq + BitVec.ofNat 32 f.payload.length

def opSize (nic : Nic) (pad : BitVec 32) (op : Op) : BitVec 32 :=
  match opSegment nic pad op with
  | some s => s.size
  | none => 0

/-- The frames of a step that carry a FIN are those of the two ways to send one. -/
structure Fins (nic : Nic) (env : Env) (op : Op) (c : Connection) (frames : List Frame) : Prop where
  only : ∀ f ∈ frames, f.tcp.has rteTcpFinFlag = true →
    (sendsFin nic env.pad op (some c) = true ∧ env.mbuf = true) ∧
      f.seq = c.sendSequenceSpace.nxt ∧ f.finAt = c.sendSequenceSpace.nxt + opSize nic env.pad op
  some : sendsFin nic env.pad op (some c) = true → env.mbuf = true →
    ∃ f ∈ frames, f.tcp.has rteTcpFinFlag = true

section
variable {env : Env} {t : Tcp} {op : Op} {c : Connection} {frames : List Frame}

theorem fins_none (hsends : sendsFin t.nic env.pad op (some c) = false)
    (h : ∀ f ∈ frames, f.tcp.has rteTcpFinFlag = false) : Fins t.nic env op c frames where
  only f hf hfin := by cases (h f hf).symm.trans hfin
  some he := by cases hsends.symm.trans he

theorem fins_quiet (hsends : sendsFin t.nic env.pad op (some c) = false) {d : Connection}
    {data : Mem} {n m : BitVec 64} (hd : d.rteTcpHdr.has rteTcpFinFlag = false)
    (hp : sendP env t (txHeaders K d n) data m = some frames) : Fins t.nic env op c frames :=
  fins_none hsends fun f hf => (sendP_has hp _ f hf).trans hd

theorem fins_sent (hsends : sendsFin t.nic env.pad op (some c) = true) {d : Connection}
    {data : Mem} {n m : BitVec 64} (hd : d.rteTcpHdr.tcpFlags = rteTcpFinFlag ||| rteTcpAckFlag)
    (hnxt : d.sendSequenceSpace.nxt = c.sendSequenceSpace.nxt)
    (hm : BitVec.ofNat 32 m.toNat = opSize t.nic env.pad op)
    (hp : sendP env t (txHeaders K d n) data m = some frames) : Fins t.nic env op c frames where
  only f hf _ := by
    obtain ⟨hs, hpay, -⟩ := sendP_seq hp f hf
    have hseq : f.seq = c.sendSequenceSpace.nxt := hs.trans hnxt
    refine ⟨⟨hsends, (sendP_exists hp).mp ⟨f, hf⟩⟩, hseq, ?_⟩
    unfold Frame.finAt
    rw [hseq, hpay, Mem.length_bytes, hm]
  some _ hmbuf := by
    obtain ⟨f, hf⟩ := (sendP_exists hp).mpr hmbuf
    refine ⟨f, hf, (sendP_has hp _ f hf).trans ?_⟩
    unfold TcpHdr.has
    rw [hd]
    decide

theorem rx_fins {p : Packet} {s : Seg} {o : Option Connection} {out : Out}
    (hs : rxSegment t.nic env.pad p = some s) (h : Rx K env t c s o out) (hq : c.Quiet) :
    Fins t.nic env (.rx p) c out.frames := by
  have sends : sendsFin t.nic env.pad (.rx p) (some c) = true ↔ c.tcpState = .established ∧
      segmentCheck c s.size s.seq = true ∧ s.tcpHdr.has rteTcpFinFlag = true := by
    simp [sendsFin, hs]
  have other : ∀ {x}, c.tcpState = x → x ≠ .established →
      sendsFin t.nic env.pad (.rx p) (some c) = false := by
    intro x hst hx
    rw [← Bool.not_eq_true, sends]
    exact fun h => hx (hst.symm.trans h.1)
  have plain : s.tcpHdr.has rteTcpFinFlag = false →
      sendsFin t.nic env.pad (.rx p) (some c) = false := by
    intro hf
    rw [← Bool.not_eq_true, sends, hf]
    exact fun h => nomatch h.2.2
  cases h with
  | ignored ha =>
    refine fins_none ?_ fun _ hf => nomatch hf
    rw [← Bool.not_eq_true, sends]
    rintro ⟨hst, hsc, -⟩
    unfold Connection.accepts at ha
    rw [hst] at ha
    cases ha.symm.trans hsc
  | synAgain hst _ _ hp => exact fins_quiet (other hst (by decide)) (unsent_has_fin hq) hp
  | synAcked hst _ _ => exact fins_none (other hst (by decide)) fun _ hf => nomatch hf
  | synAnswered hst _ hp =>
    exact fins_quiet (other hst (by decide)) (synAnswered_quiet _ s).2 hp
  | finAnswered hst hsc hfin hp =>
    have hsize : opSize t.nic env.pad (.rx p) = s.size := by simp only [opSize, opSegment, hs]
    exact fins_sent (d := c.finAnswered s) (sends.mpr ⟨hst, hsc, hfin⟩) rfl rfl
      ((sizeT_ofNat s.size).trans hsize.symm) hp
  | acked _ _ hf _ => exact fins_none (plain hf) fun _ hf => nomatch hf
  | dataAnswered _ _ hf _ hp => exact fins_quiet (plain hf) (dataAnswered_quiet c s).2 hp
  | finAcked hst _ _ hp =>
    exact fins_quiet (other hst (by decide)) (finAcked_quiet c s).2 hp
  | finAcked2 hst _ hp => exact fins_quiet (other hst (by decide)) (finAcked_quiet c s).2 hp
  | closed hst => exact fins_none (other hst (by decide)) fun _ hf => nomatch hf

theorem slot_fins {o : Option Connection} {out : Out} (h : Slot K env t op (some c) o out)
    (hq : c.Quiet) : Fins t.nic env op c out.frames := by
  cases h with
  | dropped hs => exact fins_none (by simp [sendsFin, hs]) fun _ hf => nomatch hf
  | handled hs hrx => exact rx_fins hs hrx hq
  | present => exact fins_none rfl fun _ hf => nomatch hf
  | finSent hp => exact fins_sent (d := c.finRaised) rfl rfl rfl rfl hp
  | dataSent hp => exact fins_quiet rfl (loaded_quiet c _ _).2 hp

theorem slot_made_fins {o : Option Connection} {out : Out} (h : Slot K env t op none o out) :
    ∀ f ∈ out.frames, f.tcp.has rteTcpFinFlag = false := by
  intro f hf
  cases h with
  | dropped _ => cases hf
  | unknown _ _ => cases hf
  | opened _ _ _ hp _ =>
    have hflags : (rteTcpSynFlag ||| rteTcpAckFlag) &&& rteTcpFinFlag = 0 := by decide
    exact (sendP_has hp _ f hf).trans (TcpHdr.has_eq_false.mpr hflags)
  | connected _ hp _ =>
    have hflags : rteTcpSynFlag &&& rteTcpFinFlag = 0 := by decide
    exact (sendP_has hp _ f hf).trans (TcpHdr.has_eq_false.mpr hflags)
  | noClose => cases hf
  | noSend => cases hf

end

def finNumber (q : Quad) (e : (machine K).Event) : Option (BitVec 32) :=
  (e.pre.conn q).map (·.sendSequenceSpace.nxt)

/-- The number of the FIN that a step is about to send for `q`. -/
def finGoing (q : Quad) (e : (machine K).Event) : Option (BitVec 32) :=
  if finIn q e && e.input.env.mbuf then
    (finNumber q e).map (· + opSize e.pre.tcp.nic e.input.env.pad e.input.op)
  else none

theorem finGoing_iff {tr : List (machine K).Event} {e : (machine K).Event} (hr : Machine.Run tr e.pre)
    {n : BitVec 32} : finGoing (eventKey e) e = some n ↔
      ∃ f ∈ e.out.frames, f.tcp.has rteTcpFinFlag = true ∧ f.finAt = n := by
  have hslot := (event_slot e (run_rep hr)).2
  unfold finGoing finIn finNumber
  cases hc : e.pre.conn (eventKey e) with
  | none =>
    rw [hc] at hslot
    refine iff_of_false (by simp) ?_
    rintro ⟨f, hf, hfin, -⟩
    cases (slot_made_fins hslot f hf).symm.trans hfin
  | some c =>
    rw [hc] at hslot
    have hfins := slot_fins hslot (run_quiet hr _ c hc)
    simp only [decide_true, Bool.true_and, Bool.and_eq_true, Option.map_some]
    constructor
    · intro h
      split at h
      · rename_i hgo
        obtain ⟨f, hf, hfin⟩ := hfins.some hgo.1 hgo.2
        exact ⟨f, hf, hfin, (hfins.only f hf hfin).2.2.trans (Option.some.inj h)⟩
      · cases h
    · rintro ⟨f, hf, hfin, rfl⟩
      obtain ⟨hgo, -, hat⟩ := hfins.only f hf hfin
      rw [if_pos hgo, hat]

/-! ## The stream -/

/-- The number of the `k`-th byte handed over. -/
def byteNumber (k : Nat) : BitVec 32 := iss + 1 + BitVec.ofNat 32 k

theorem byteNumber_add (l i : Nat) : byteNumber (l + i) = byteNumber l + BitVec.ofNat 32 i := by
  unfold byteNumber
  rw [BitVec.ofNat_add, ← add_assoc]

theorem byteNumber_distinct {n : Nat} :
    (∀ j k, j < k → k < n → byteNumber j ≠ byteNumber k) ↔ n ≤ 2 ^ 32 := by
  constructor
  · intro h
    by_contra hn
    exact h 0 (2 ^ 32) (by decide) (Nat.lt_of_not_le hn) rfl
  · intro hn j k hjk hk he
    have hmod := congrArg BitVec.toNat (add_left_cancel he)
    rw [BitVec.toNat_ofNat, BitVec.toNat_ofNat] at hmod
    omega

/-- Of a connection whose user has handed over `stream q xs` before `e`. -/
structure Numbered (q : Quad) (xs : List (machine K).Event) (e : (machine K).Event) : Prop where
  /-- Each byte handed over is sent, under the number of its place in the stream. -/
  sent : ∀ x data, e.input.op = .send x data → ∀ i b, data[i]? = some b →
    ∃ f ∈ e.out.frames, f.payload[i]? = some b ∧
      f.seq + BitVec.ofNat 32 i = byteNumber ((stream q xs).length + i)
  /-- Nothing else is sent with it. -/
  only : ∀ x data, e.input.op = .send x data → ∀ f ∈ e.out.frames, ∀ i b,
    f.payload[i]? = some b → data[i]? = some b ∧
      f.seq + BitVec.ofNat 32 i = byteNumber ((stream q xs).length + i)
  /-- The user's close sends a FIN, under the number after the last byte. -/
  close : ∀ x, e.input.op = .close x →
    (∃ f ∈ e.out.frames, f.tcp.has rteTcpFinFlag = true) ∧
      ∀ f ∈ e.out.frames, f.seq = byteNumber (stream q xs).length
  /-- No FIN of the connection has the number of a byte. -/
  apart : ∀ y ∈ xs ++ [e], eventKey y = q → ∀ f ∈ y.out.frames, f.tcp.has rteTcpFinFlag = true →
    ∀ k < (stream q (xs ++ [e])).length, f.finAt ≠ byteNumber k
  /-- No two bytes have the same number. -/
  distinct : ∀ j k, j < k → k < (stream q (xs ++ [e])).length → byteNumber j ≠ byteNumber k

/-- The user sends and closes only when everything handed over before has been
acknowledged and there is a buffer, sends no more at once than an `int` counts and no
more in all than there are numbers, and no FIN is sent where a byte has its number. -/
structure Waits (q : Quad) (xs : List (machine K).Event) (e : (machine K).Event) : Prop where
  send : ∀ x data, e.input.op = .send x data → data ≠ [] →
    e.input.env.mbuf = true ∧ nextNumber q xs = byteNumber (stream q xs).length ∧
      data.length < 2 ^ 31
  close : ∀ x, e.input.op = .close x →
    e.input.env.mbuf = true ∧ nextNumber q xs = byteNumber (stream q xs).length
  fins : ∀ y ∈ xs ++ [e], ∀ n, finGoing q y = some n →
    ∀ k < (stream q (xs ++ [e])).length, n ≠ byteNumber k
  room : (stream q (xs ++ [e])).length ≤ 2 ^ 32

def NumbersStream (tr : List (machine K).Event) (e : (machine K).Event) : Prop :=
  ∀ q xs, SinceMade tr q xs → eventKey e = q → Numbered q xs e

def WaitsForAck (tr : List (machine K).Event) (e : (machine K).Event) : Prop :=
  ∀ q xs, SinceMade tr q xs → eventKey e = q → Waits q xs e

section
variable {env : Env} {t : Tcp} {c : Connection} {frames : List Frame}

/-- The frame of a send, with as much of the data as an `int` counts. -/
theorem send_frame {data : List Byte} {n : BitVec 32} (hn : n = BitVec.ofNat 32 data.length)
    (h : sendP env t (txHeaders K (c.loaded (tokenMem data) n) (sizeT n)) (tokenMem data) (sizeT n) =
      some frames) {f : Frame} (hf : f ∈ frames) : f.seq = c.sendSequenceSpace.nxt ∧
    f.payload = (tokenMem data).bytes (data.length % 2 ^ 32) ∧ data.length % 2 ^ 32 < 2 ^ 31 := by
  obtain ⟨hseq, hp, hmsb⟩ := sendP_seq h f hf
  subst hn
  obtain ⟨hm, hlt⟩ := sizeT_mod hmsb
  rw [hm] at hp
  exact ⟨hseq, hp, hlt⟩

theorem send_whole {data : List Byte} {n : BitVec 32} (hn : n = BitVec.ofNat 32 data.length)
    (h : sendP env t (txHeaders K (c.loaded (tokenMem data) n) (sizeT n)) (tokenMem data) (sizeT n) =
      some frames) (hlen : data ≠ [] → data.length < 2 ^ 31) : ∀ f ∈ frames, f.payload = data := by
  intro f hf
  rw [(send_frame hn h hf).2.1, tokenMem_eq]
  by_cases hne : data = []
  · rw [hne]
    rfl
  · exact Nat.mod_eq_of_lt (Nat.lt_trans (hlen hne) (by decide))

/-- All of the data goes out, and under its number, exactly if there is a buffer, an `int`
counts it and `snd.nxt` is that number. -/
theorem send_numbers {data : List Byte} {n : BitVec 32} (hn : n = BitVec.ofNat 32 data.length)
    (h : sendP env t (txHeaders K (c.loaded (tokenMem data) n) (sizeT n)) (tokenMem data) (sizeT n) =
      some frames) (l : Nat) :
    ((∀ i b, data[i]? = some b → ∃ f ∈ frames, f.payload[i]? = some b ∧
        f.seq + BitVec.ofNat 32 i = byteNumber (l + i)) ∧
      ∀ f ∈ frames, ∀ i b, f.payload[i]? = some b → data[i]? = some b ∧
        f.seq + BitVec.ofNat 32 i = byteNumber (l + i)) ↔
      (data ≠ [] → env.mbuf = true ∧ c.sendSequenceSpace.nxt = byteNumber l ∧
        data.length < 2 ^ 31) := by
  constructor
  · intro hall hne
    have hpos : 0 < data.length := List.length_pos_iff.mpr hne
    obtain ⟨f, hf, -, hnum⟩ := hall.1 0 _ (List.getElem?_eq_getElem hpos)
    rw [Nat.add_zero, (send_frame hn h hf).1, BitVec.add_zero] at hnum
    refine ⟨(sendP_exists h).mp ⟨f, hf⟩, hnum, ?_⟩
    -- the last byte is in a frame of the length as the `int` has it
    obtain ⟨g, hg, hlast, -⟩ := hall.1 (data.length - 1) _
      (List.getElem?_eq_getElem (Nat.sub_lt hpos Nat.one_pos))
    obtain ⟨hi, -⟩ := List.getElem?_eq_some_iff.mp hlast
    obtain ⟨-, hp, hlt⟩ := send_frame hn h hg
    rw [hp, Mem.length_bytes] at hi
    omega
  · intro hok
    have hpay := send_whole hn h fun hne => (hok hne).2.2
    have hne : ∀ {i : Nat} {b : Byte}, data[i]? = some b → data ≠ [] := by
      rintro i b hb rfl
      cases hb
    have hnum : ∀ f ∈ frames, ∀ i b, data[i]? = some b →
        f.seq + BitVec.ofNat 32 i = byteNumber (l + i) := by
      intro f hf i b hb
      rw [(send_frame hn h hf).1, (hok (hne hb)).2.1, byteNumber_add]
    constructor
    · intro i b hb
      obtain ⟨f, hf⟩ := (sendP_exists h).mpr (hok (hne hb)).1
      refine ⟨f, hf, ?_, hnum f hf i b hb⟩
      rw [hpay f hf]
      exact hb
    · intro f hf i b hb
      rw [hpay f hf] at hb
      exact ⟨hb, hnum f hf i b hb⟩

theorem close_numbers (h : sendP env t (txHeaders K c.finRaised 0) Mem.null 0 = some frames)
    (x : BitVec 32) :
    ((∃ f ∈ frames, f.tcp.has rteTcpFinFlag = true) ∧ ∀ f ∈ frames, f.seq = x) ↔
      env.mbuf = true ∧ c.sendSequenceSpace.nxt = x := by
  have hseq : ∀ f ∈ frames, f.seq = c.sendSequenceSpace.nxt := fun f hf => (sendP_seq h f hf).1
  constructor
  · rintro ⟨⟨f, hf, -⟩, hall⟩
    exact ⟨(sendP_exists h).mp ⟨f, hf⟩, (hseq f hf).symm.trans (hall f hf)⟩
  · rintro ⟨hm, hnxt⟩
    obtain ⟨f, hf⟩ := (sendP_exists h).mpr hm
    have hflags : c.finRaised.rteTcpHdr.tcpFlags = rteTcpFinFlag ||| rteTcpAckFlag := rfl
    refine ⟨⟨f, hf, (sendP_has h _ f hf).trans ?_⟩, fun f hf => (hseq f hf).trans hnxt⟩
    unfold TcpHdr.has
    rw [hflags]
    decide

end

section
variable {tr xs : List (machine K).Event} {e : (machine K).Event}

theorem event_sends (hr : Machine.Run tr e.pre) (hs : SinceMade tr (eventKey e) xs) {x : Quad}
    {data : List Byte} (hx : e.input.op = .send x data) :
    ((∀ i b, data[i]? = some b → ∃ f ∈ e.out.frames, f.payload[i]? = some b ∧
        f.seq + BitVec.ofNat 32 i = byteNumber ((stream (eventKey e) xs).length + i)) ∧
      ∀ f ∈ e.out.frames, ∀ i b, f.payload[i]? = some b → data[i]? = some b ∧
        f.seq + BitVec.ofNat 32 i = byteNumber ((stream (eventKey e) xs).length + i)) ↔
      (data ≠ [] → e.input.env.mbuf = true ∧
        nextNumber (eventKey e) xs = byteNumber (stream (eventKey e) xs).length ∧
          data.length < 2 ^ 31) := by
  obtain ⟨c, hc, hn⟩ := nxt_nextNumber hr hs
  have hslot := (event_slot e (run_rep hr)).2
  rw [hc, hx] at hslot
  rw [← hn]
  generalize e.post.conn (eventKey e) = o at hslot
  generalize e.out = out at hslot ⊢
  cases hslot with
  | dataSent hp => exact send_numbers rfl hp _

theorem event_closes (hr : Machine.Run tr e.pre) (hs : SinceMade tr (eventKey e) xs) {x : Quad}
    (hx : e.input.op = .close x) :
    ((∃ f ∈ e.out.frames, f.tcp.has rteTcpFinFlag = true) ∧
        ∀ f ∈ e.out.frames, f.seq = byteNumber (stream (eventKey e) xs).length) ↔
      e.input.env.mbuf = true ∧
        nextNumber (eventKey e) xs = byteNumber (stream (eventKey e) xs).length := by
  obtain ⟨c, hc, hn⟩ := nxt_nextNumber hr hs
  have hslot := (event_slot e (run_rep hr)).2
  rw [hc, hx] at hslot
  rw [← hn]
  generalize e.post.conn (eventKey e) = o at hslot
  generalize e.out = out at hslot ⊢
  cases hslot with
  | finSent hp => exact close_numbers hp _

end

theorem event_apart {tr : List (machine K).Event} {e : (machine K).Event} (hr : Machine.Run tr e.pre)
    {q : Quad} {P : BitVec 32 → Prop} :
    (eventKey e = q → ∀ f ∈ e.out.frames, f.tcp.has rteTcpFinFlag = true → P f.finAt) ↔
      ∀ n, finGoing q e = some n → P n := by
  by_cases hq : eventKey e = q
  · subst hq
    constructor
    · intro h n hn
      obtain ⟨f, hf, hfin, rfl⟩ := (finGoing_iff hr).mp hn
      exact h rfl f hf hfin
    · intro h _ f hf hfin
      exact h _ ((finGoing_iff hr).mpr ⟨f, hf, hfin, rfl⟩)
  · refine iff_of_true (fun h => absurd h hq) fun n hn => ?_
    simp [finGoing, finIn, hq] at hn

/-- One step numbers the stream rightly exactly if the number the history gives is
that of the next place in the stream. -/
theorem event_numbers {tr : List (machine K).Event} {e : (machine K).Event}
    (hr : Machine.Run tr e.pre) : NumbersStream tr e ↔ WaitsForAck tr e := by
  unfold NumbersStream WaitsForAck
  refine forall_congr' fun q => forall_congr' fun xs => forall_congr' fun hs =>
    forall_congr' fun hq => ?_
  subst hq
  have hruns : ∀ y ∈ xs ++ [e], ∃ ty : List (machine K).Event, Machine.Run ty y.pre := by
    intro y hy
    rcases List.mem_append.mp hy with hy | hy
    · obtain ⟨ta, a, rfl, -⟩ := hs
      obtain ⟨t₁, t₂, ht⟩ := List.append_of_mem (List.mem_append_right ta (List.mem_cons_of_mem a hy))
      rw [ht] at hr
      exact ⟨t₁, (Machine.run_at hr).1⟩
    · rw [List.mem_singleton] at hy
      subst hy
      exact ⟨tr, hr⟩
  constructor
  · intro h
    refine ⟨fun x data hx => (event_sends hr hs hx).mp ⟨h.sent x data hx, h.only x data hx⟩,
      fun x hx => (event_closes hr hs hx).mp (h.close x hx), fun y hy => ?_,
      byteNumber_distinct.mp h.distinct⟩
    obtain ⟨ty, hry⟩ := hruns y hy
    exact (event_apart hry (P := fun n => ∀ k < _, n ≠ byteNumber k)).mp (h.apart y hy)
  · intro h
    refine ⟨fun x data hx => ((event_sends hr hs hx).mpr (h.send x data hx)).1,
      fun x data hx => ((event_sends hr hs hx).mpr (h.send x data hx)).2,
      fun x hx => (event_closes hr hs hx).mpr (h.close x hx), fun y hy => ?_,
      byteNumber_distinct.mpr h.room⟩
    obtain ⟨ty, hry⟩ := hruns y hy
    exact (event_apart hry (P := fun n => ∀ k < _, n ≠ byteNumber k)).mpr (h.fins y hy)

/-- In every run every byte handed over and the FIN of the close are sent under the number
of their place in the stream, which no other byte and no FIN has, exactly if the user
waits for each piece to be acknowledged. -/
theorem numbers_stream_iff {tr : List (machine K).Event} {k : Core} (h : Machine.Run tr k) :
    Machine.Meets NumbersStream tr ↔ Machine.Meets WaitsForAck tr :=
  Machine.Run.meets_iff (fun _ _ hr => event_numbers hr) h

end

/-! ## On the host -/

theorem numbers_stream_iff_send : ∃ (tr : List (machine rfcCksum).Event) (k : Core),
    Machine.Run tr k ∧ tr.length = 3 ∧
      (Machine.Meets NumbersStream tr ↔ Machine.Meets WaitsForAck tr) := by
  obtain ⟨tr, k, hr, hQ⟩ := Machine.exists_run (host_init rfcCksum) (peerOpens ++ [userSend [0x41]])
    (Q := fun r => r.1.length = 3) (by decide +kernel)
  exact ⟨tr, k, hr, of_decide_eq_true hQ, numbers_stream_iff hr⟩

def AcksOnlySent {K : RteCksum} (tr : List (machine K).Event) (e : (machine K).Event) : Prop :=
  ∀ s, segOf e = some s → ∀ xs, SinceMade tr s.q xs →
    Circle.fwd iss s.ackn ≤ 1 + (stream s.q xs).length + (xs.filter (finIn s.q)).length

/-- Two bytes sent one after the other both go out under the number 1. -/
theorem not_numbers_stream : ¬∀ (tr : List (machine rfcCksum).Event) (k : Core),
    Machine.Run tr k → Machine.Meets AcksOnlySent tr → Machine.Meets NumbersStream tr := by
  intro h
  obtain ⟨tr, k, hr, hQ⟩ := Machine.exists_run (host_init rfcCksum)
    (peerOpens ++ [userSend [0x41], userSend [0x42]])
    (Q := fun r => match r.1 with
      | [a, b, d, e] =>
        (∀ x ∈ r.1, ∀ s ∈ segOf x, Circle.fwd iss s.ackn ≤ 1) ∧
          (a.pre.conn peerQuad).isNone ∧ (∀ x ∈ [a, b, d], (x.post.conn peerQuad).isSome) ∧
          eventKey e = peerQuad ∧ opData e.input.op = [0x42] ∧
          e.out.frames.all (fun f => f.seq ≠ byteNumber (stream peerQuad [b, d]).length)
      | _ => false) (by decide +kernel)
  simp only at hQ
  split at hQ
  · rename_i a b d e
    obtain ⟨hacks, hnew, hin, hkey, hdata, hseq⟩ := of_decide_eq_true hQ
    have hcover : Machine.Meets AcksOnlySent [a, b, d, e] := by
      intro tr₁ x tr₂ ht s hs xs _
      have hle := hacks x (by rw [ht]; simp) s hs
      omega
    have hmade : SinceMade [a, b, d] peerQuad [b, d] := sinceMade_of (t := []) hnew hin
    have hnum := h _ k hr hcover [a, b, d] e [] rfl peerQuad [b, d] hmade hkey
    cases hx : e.input.op with
    | send x data =>
      rw [hx] at hdata
      obtain rfl : data = [0x42] := hdata
      obtain ⟨f, hf, -, hs⟩ := hnum.sent x _ hx 0 0x42 rfl
      rw [Nat.add_zero, BitVec.add_zero] at hs
      exact of_decide_eq_true (List.all_eq_true.mp hseq f hf) hs
    | rx _ => rw [hx] at hdata; cases hdata
    | connect _ _ _ => rw [hx] at hdata; cases hdata
    | close _ => rw [hx] at hdata; cases hdata
  · cases hQ

end TcpDpdk

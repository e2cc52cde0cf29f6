import TcpDpdk.Checksum
import TcpDpdk.Numbering

/-!
# The payload of what is sent

Only `active_send_data` has anything to say. Four answers nevertheless carry the
data of the segment they answer: to the first SYN and to a SYN repeated in
TCP_SYN_RECV, in TCP_SYN_SENT, and to a FIN in TCP_ESTABLISHED.
-/

namespace TcpDpdk

/-! ## The bytes handed to the driver -/

section
variable {K : RteCksum} {env : Env} {t : Tcp} {c : Connection} {data : Mem} {n : BitVec 64}
  {frames : List Frame}

theorem sendP_payload (h : sendP env t c data n = some frames) (P : List Byte → Prop) :
    (∀ f ∈ frames, P f.payload) ↔ (env.mbuf = true → P (data.bytes n.toNat)) := by
  rcases sendP_some h with ⟨rfl, hm⟩ | ⟨rfl, hm, -⟩
  · rw [hm]
    exact iff_of_true (fun _ hf => nomatch hf) fun h => nomatch h
  · rw [hm, List.forall_mem_singleton]
    exact ⟨fun h _ => h, fun h => h rfl⟩

theorem bytes_eq_nil {m : Nat} : data.bytes m = [] ↔ m = 0 := by
  rw [← List.length_eq_zero_iff, Mem.length_bytes]

end

/-! ## Reflected bytes -/

def Frame.Own (op : Op) (f : Frame) : Prop :=
  f.payload = [] ∨ ∃ x data, op = .send x data ∧ f.payload = data

/-- A segment whose data would be sent back has none, and the user's token has a
length that an `unsigned` holds. -/
def NothingToReflect (env : Env) (t : Tcp) (op : Op) (o : Option Connection) : Prop :=
  match op, o with
  | .rx p, none => ∀ s ∈ rxSegment t.nic env.pad p, s.tcpHdr.tcpFlags = rteTcpSynFlag → s.size = 0
  | .rx p, some c => ∀ s ∈ rxSegment t.nic env.pad p, c.echoes s = true → s.size = 0
  | .send _ data, some _ => data.length % 2 ^ 32 = 0 ∨ data.length < 2 ^ 32
  | _, _ => True

section
variable {K : RteCksum} {env : Env} {t : Tcp}

theorem own_rx {p : Packet} {f : Frame} : f.Own (.rx p) ↔ f.payload = [] := by
  constructor
  · intro h
    exact h.resolve_right fun ⟨_, _, hop, _⟩ => nomatch hop
  · exact Or.inl

theorem own_silent {op : Op} : ∀ f ∈ ({} : Out).frames, f.Own op := fun _ hf => nomatch hf

theorem own_empty {op : Op} {c : Connection} {data : Mem} {frames : List Frame}
    (h : sendP env t c data 0 = some frames) : ∀ f ∈ frames, f.Own op :=
  fun f hf => Or.inl ((sendP_payload h (· = [])).mpr (fun _ => rfl) f hf)

theorem own_echo {p : Packet} {c : Connection} {s : Seg} {frames : List Frame}
    (h : sendP env t c s.data (sizeT s.size) = some frames) :
    (∀ f ∈ frames, f.Own (.rx p)) ↔ (env.mbuf = true → s.size = 0) := by
  simp only [own_rx]
  rw [sendP_payload h (· = []), bytes_eq_nil, sizeT_eq_zero]

theorem sendP_empty {P : List Byte → Prop} (h0 : P []) {c : Connection} {data : Mem}
    {frames : List Frame} (h : sendP env t c data 0 = some frames) : ∀ f ∈ frames, P f.payload :=
  (sendP_payload h P).mpr fun _ => h0

/-- What a received segment makes the core send is its own data, where it is echoed, and
nothing otherwise. -/
theorem rx_payload {P : List Byte → Prop} (h0 : P []) {c : Connection} {s : Seg}
    {o : Option Connection} {out : Out} (h : Rx K env t c s o out) :
    (∀ f ∈ out.frames, P f.payload) ↔
      (env.mbuf = true → c.echoes s = true → P (s.data.bytes (sizeT s.size).toNat)) := by
  have silent : ∀ {out : Out}, (∀ f ∈ out.frames, P f.payload) → c.echoes s = false →
      ((∀ f ∈ out.frames, P f.payload) ↔
        (env.mbuf = true → c.echoes s = true → P (s.data.bytes (sizeT s.size).toNat))) :=
    fun hown he => iff_of_true hown fun _ h => by cases he.symm.trans h
  have echo : ∀ {d : Connection} {frames : List Frame}, c.echoes s = true →
      sendP env t d s.data (sizeT s.size) = some frames →
      ((∀ f ∈ frames, P f.payload) ↔
        (env.mbuf = true → c.echoes s = true → P (s.data.bytes (sizeT s.size).toNat))) :=
    fun he hp => by rw [sendP_payload hp P, he]; simp
  have none : ∀ f ∈ ({} : Out).frames, P f.payload := fun _ hf => nomatch hf
  unfold Connection.echoes at silent echo ⊢
  cases h with
  | ignored ha =>
    apply silent none
    unfold Connection.accepts at ha
    split at ha
    · rename_i hst
      rw [hst]
      split at ha
      · rename_i hsc; simp [hsc]
      · rename_i hsc; simp [hsc, ha]
    · rename_i hst
      rw [hst]
      simp [ha]
    · rename_i hst
      rw [hst]
      exact ha
    · rename_i hst; rw [hst]
    · cases ha
    · cases ha
    · split <;> simp_all
  | synAgain hst hsc hf hp => exact echo (by rw [hst]; simp [hsc, hf]) hp
  | synAcked hst hsc _ => exact silent none (by rw [hst]; simp [hsc])
  | synAnswered hst _ hp => exact echo (by rw [hst]) hp
  | finAnswered hst hsc hf hp => exact echo (by rw [hst]; simp [hsc, hf]) hp
  | acked hst _ hf _ => exact silent none (by rw [hst]; simp [hf])
  | dataAnswered hst _ hf _ hp => exact silent (sendP_empty h0 hp) (by rw [hst]; simp [hf])
  | finAcked hst _ _ hp => exact silent (sendP_empty h0 hp) (by rw [hst])
  | finAcked2 hst hsc hp => exact echo (by rw [hst]; simp [hsc]) hp
  | closed hst => exact silent none (by rw [hst])

theorem rx_own {p : Packet} {c : Connection} {s : Seg} {o : Option Connection} {out : Out}
    (h : Rx K env t c s o out) :
    (∀ f ∈ out.frames, f.Own (.rx p)) ↔ (env.mbuf = true → c.echoes s = true → s.size = 0) := by
  simp only [own_rx]
  rw [rx_payload (P := (· = [])) rfl h, bytes_eq_nil, sizeT_eq_zero]

theorem own_send {x : Quad} {data : List Byte} {c : Connection} {frames : List Frame}
    (h : sendP env t c (tokenMem data) (sizeT (BitVec.ofNat 32 data.length)) = some frames) :
    (∀ f ∈ frames, f.Own (.send x data)) ↔
      (env.mbuf = true → data.length % 2 ^ 32 = 0 ∨ data.length < 2 ^ 32) := by
  have hown : ∀ f : Frame, f.Own (.send x data) ↔ f.payload = [] ∨ f.payload = data := by
    intro f
    refine or_congr_right ⟨?_, fun h => ⟨x, data, rfl, h⟩⟩
    intro ⟨_, _, hop, hp⟩
    cases hop
    exact hp
  simp only [hown]
  rcases sendP_some h with ⟨rfl, hm⟩ | ⟨rfl, hm, hmsb⟩
  · rw [hm]
    exact iff_of_true (fun _ hf => nomatch hf) fun h => nomatch h
  · rw [hm, List.forall_mem_singleton]
    show (Mem.bytes _ _ = [] ∨ Mem.bytes _ _ = data) ↔ _
    rw [bytes_eq_nil, tokenMem_eq, (sizeT_mod hmsb).1]
    have hlt : data.length % 2 ^ 32 = data.length ↔ data.length < 2 ^ 32 := by omega
    rw [hlt]
    exact ⟨fun h _ => h, fun h => h rfl⟩

theorem slot_own {op : Op} {o o' : Option Connection} {out : Out} (h : Slot K env t op o o' out) :
    (∀ f ∈ out.frames, f.Own op) ↔ (env.mbuf = true → NothingToReflect env t op o) := by
  have only : ∀ {p : Packet} {s : Seg} {P : Seg → Prop}, rxSegment t.nic env.pad p = some s →
      ((∀ s' ∈ rxSegment t.nic env.pad p, P s') ↔ P s) := by
    intro p s P hs
    rw [hs]
    exact ⟨fun h => h s rfl, fun h s' hs' => by cases hs'; exact h⟩
  cases h with
  | @dropped p o hs =>
    refine iff_of_true own_silent fun _ => ?_
    cases o with
    | none => exact fun s hs' => by cases hs.symm.trans hs'
    | some c => exact fun s hs' => by cases hs.symm.trans hs'
  | unknown hs hf =>
    exact iff_of_true own_silent fun _ => (only hs).mpr fun hsyn => absurd hsyn hf
  | @opened p s _ _ _ hs hf _ hp _ =>
    rw [own_echo hp]
    exact imp_congr_right fun _ => ⟨fun h => (only hs).mpr fun _ => h, fun h => (only hs).mp h hf⟩
  | @handled p s c _ _ hs hrx =>
    rw [rx_own hrx]
    exact imp_congr_right fun _ => (only (P := fun s => c.echoes s = true → s.size = 0) hs).symm
  | connected _ hp _ => exact iff_of_true (own_empty hp) fun _ => trivial
  | present => exact iff_of_true own_silent fun _ => trivial
  | noClose => exact iff_of_true own_silent fun _ => trivial
  | noSend => exact iff_of_true own_silent fun _ => trivial
  | finSent hp => exact iff_of_true (own_empty hp) fun _ => trivial
  | dataSent hp => exact own_send hp

end

section
variable {K : RteCksum}

/-- In every run no byte the peer sent is sent back, exactly if no segment with data
takes one of the four answers while there is a buffer. -/
theorem own_payload_iff {tr : List (machine K).Event} {k : Core} (h : Machine.Run tr k) :
    (∀ e ∈ tr, ∀ f ∈ e.out.frames, f.Own e.input.op) ↔
      ∀ e ∈ tr, e.input.env.mbuf = true →
        NothingToReflect e.input.env e.pre.tcp e.input.op (e.pre.conn (eventKey e)) := by
  refine forall_congr' fun e => forall_congr' fun he => ?_
  obtain ⟨tr₁, hr⟩ := h.reached he
  exact slot_own (event_slot e (run_rep hr)).2

end

/-! ## On the host -/

theorem own_payload_iff_send : ∃ (tr : List (machine rfcCksum).Event) (k : Core),
    Machine.Run tr k ∧ tr.length = 3 ∧
      ((∀ e ∈ tr, ∀ f ∈ e.out.frames, f.Own e.input.op) ↔
        ∀ e ∈ tr, e.input.env.mbuf = true →
          NothingToReflect e.input.env e.pre.tcp e.input.op (e.pre.conn (eventKey e))) := by
  obtain ⟨tr, k, hr, hQ⟩ := Machine.exists_run (host_init rfcCksum) (peerOpens ++ [userSend [0x41]])
    (Q := fun r => r.1.length = 3) (by decide +kernel)
  exact ⟨tr, k, hr, of_decide_eq_true hQ, own_payload_iff hr⟩

/-- A FIN with one byte of data is answered with that byte. -/
theorem not_own_payload : ¬∀ (tr : List (machine rfcCksum).Event) (k : Core), Machine.Run tr k →
    ∀ e ∈ tr, ∀ f ∈ e.out.frames, f.Own e.input.op := by
  intro h
  obtain ⟨tr, k, hr, e, he, hQ⟩ := Machine.exists_event (host_init rfcCksum)
    (peerOpens ++ [recv (rteTcpFinFlag ||| rteTcpAckFlag) 1 1 [0x41]])
    (Q := fun e => (segOf e).isSome ∧ e.out.frames.any fun f => f.payload = [0x41])
    (by decide +kernel)
  obtain ⟨hseg, hf⟩ := of_decide_eq_true hQ
  obtain ⟨f, hf, hp⟩ := List.any_eq_true.mp hf
  have hown := h tr k hr e he f hf
  unfold segOf opSegment at hseg
  split at hseg
  · rename_i p hop
    rw [hop, own_rx] at hown
    cases hown.symm.trans (of_decide_eq_true hp)
  · cases hseg

end TcpDpdk

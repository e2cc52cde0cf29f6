import TcpDpdk.Frames

/-!
# Checksums of the segments sent

The TCP checksum is computed over the memory behind the header in the connection,
the payload is copied from the pointer the caller passed. `tcpVerifies_iff` says
what that takes: the two must have the same sum. `active_send_data` copies the data
into the connection first; the handlers that answer with the peer's own data do not.
-/

namespace TcpDpdk

/-- The two functions of `rte_ip.h` make the RFC 1071 sums of the IP header, and of
the pseudo-header with `total_length - 20` bytes from the TCP header on, a multiple
of 65535. -/
structure RteCksum.Rfc1071 (K : RteCksum) : Prop where
  ipv4 : ∀ h, (OnesSum.sum h.bytes + (K.rteIpv4Cksum h).toNat) % 65535 = 0
  udptcp : ∀ h m, 20 ≤ (rteBeToCpu16 h.totalLength).toNat →
    (OnesSum.sum (pseudoHeader h ++ m.bytes (l4Len h).toNat) +
      (K.rteIpv4UdptcpCksum h m).toNat) % 65535 = 0

theorem onesCksum_toNat (l : List Byte) : (onesCksum l).toNat = 65535 - OnesSum.sum l := by
  have h := OnesSum.sum_le l
  unfold onesCksum
  rw [BitVec.toNat_not, BitVec.toNat_ofNat]
  omega

theorem rfcCksum_rfc1071 : rfcCksum.Rfc1071 where
  ipv4 h := by
    have hle := OnesSum.sum_le h.bytes
    show (_ + (onesCksum _).toNat) % 65535 = 0
    rw [onesCksum_toNat]
    omega
  udptcp h m hl := by
    have hle := OnesSum.sum_le (pseudoHeader h ++ m.bytes (l4Len h).toNat)
    have hck := onesCksum_toNat (pseudoHeader h ++ m.bytes (l4Len h).toNat)
    have hnot : ¬rteBeToCpu16 h.totalLength < 20 := by rw [BitVec.lt_def]; exact Nat.not_lt.mpr hl
    simp only [rfcCksum, if_neg hnot]
    split
    · rename_i h0
      rw [h0] at hck
      change 0 = _ at hck
      show (_ + 65535) % 65535 = 0
      omega
    · omega

/-! ## Verifying a frame -/

def Frame.Ipv4Verifies (f : Frame) : Prop := OnesSum.Verifies f.ipv4.bytes

def Frame.TcpVerifies (f : Frame) : Prop :=
  OnesSum.Verifies (pseudoHeader f.ipv4 ++ f.tcp.bytes ++ f.payload)

instance (f : Frame) : Decidable f.TcpVerifies := inferInstanceAs (Decidable (OnesSum.Verifies _))

theorem sum_store16 (x : BitVec 16) : OnesSum.sum (store16 x) = x.toNat := by
  have h := x.isLt
  simp only [store16, OnesSum.sum, OnesSum.addc, BitVec.toNat_setWidth, BitVec.toNat_ushiftRight,
    Nat.shiftRight_eq_div_pow]
  split <;> omega

-- a header's checksum field stands at an even offset, so filling it in adds it to the sum
theorem Ipv4Hdr.sum_cksum {h : Ipv4Hdr} (h0 : h.hdrChecksum = 0) (x : BitVec 16) :
    OnesSum.sum { h with hdrChecksum := x }.bytes % 65535 =
      (OnesSum.sum h.bytes + x.toNat) % 65535 := by
  have hb : ∀ y, { h with hdrChecksum := y }.bytes =
      ([h.versionIhl, h.typeOfService] ++ store16 h.totalLength ++ store16 h.packetId ++
        store16 h.fragmentOffset ++ [h.timeToLive, h.nextProtoId]) ++ store16 y ++
        (store32 h.srcAddr ++ store32 h.dstAddr) := fun _ => by simp [Ipv4Hdr.bytes]
  have hzero := hb 0
  rw [← h0] at hzero
  rw [hb, OnesSum.sum_fill _ (by simp) (by simp), sum_store16, hzero, h0]
  rfl

theorem TcpHdr.sum_cksum {h : TcpHdr} (h0 : h.cksum = 0) (x : BitVec 16) :
    OnesSum.sum { h with cksum := x }.bytes % 65535 = (OnesSum.sum h.bytes + x.toNat) % 65535 := by
  have hb : ∀ y, { h with cksum := y }.bytes =
      (store16 h.srcPort ++ store16 h.dstPort ++ store32 h.sentSeq ++ store32 h.recvAck ++
        [h.dataOff, h.tcpFlags] ++ store16 h.rxWin) ++ store16 y ++ store16 h.tcpUrp :=
    fun _ => by simp [TcpHdr.bytes]
  have hzero := hb 0
  rw [← h0] at hzero
  rw [hb, OnesSum.sum_fill _ (by simp) (by simp), sum_store16, hzero, h0]
  rfl

theorem Mem.bytes_append (l : List Byte) (m : Mem) (n : Nat) :
    Mem.bytes (fun i => if i < l.length then l.getD i 0 else m (i - l.length)) (l.length + n) =
      l ++ m.bytes n := by
  unfold Mem.bytes
  rw [List.range_add, List.map_append]
  congr 1
  · refine List.ext_getElem (by simp) fun i h₁ h₂ => ?_
    simp [h₂]
  · rw [List.map_map]
    refine List.map_congr_left fun i _ => ?_
    simp

section
variable {K : RteCksum} (hK : K.Rfc1071) (t : Tcp) (c : Connection) (data : Mem) (n : BitVec 64)

theorem txHeaders_ipv4 : ∃ h : Ipv4Hdr, h.hdrChecksum = 0 ∧ h.versionIhl = ipVhlDef ∧
    (txHeaders K c n).rteIpv4Hdr = { h with hdrChecksum := K.rteIpv4Cksum h } :=
  ⟨_, rfl, rfl, rfl⟩

theorem txHeaders_tcp : ∃ h : TcpHdr, h.cksum = 0 ∧
    (txHeaders K c n).rteTcpHdr =
      { h with cksum := K.rteIpv4UdptcpCksum (txHeaders K c n).rteIpv4Hdr (tcpMem h c.payload) } :=
  ⟨_, rfl, rfl⟩

theorem txHeaders_totalLength {n : BitVec 64} (hn : n.toNat ≤ 65495) :
    (rteBeToCpu16 (txHeaders K c n).rteIpv4Hdr.totalLength).toNat = 40 + n.toNat := by
  show (rteBeToCpu16 (rteCpuToBe16 ((20#64 + 20#64 + n).setWidth 16))).toNat = _
  rw [rteBeToCpu16_rteCpuToBe16, BitVec.toNat_setWidth, BitVec.toNat_add]
  simp only [BitVec.reduceAdd, BitVec.toNat_ofNat]
  omega

include hK

theorem ipv4_verifies : (txFrame t (txHeaders K c n) data n).Ipv4Verifies := by
  obtain ⟨h, h0, hv, he⟩ := txHeaders_ipv4 (K := K) c n
  show OnesSum.Verifies (txHeaders K c n).rteIpv4Hdr.bytes
  rw [he]
  have hne : ∃ x ∈ { h with hdrChecksum := K.rteIpv4Cksum h }.bytes, x ≠ 0 :=
    ⟨h.versionIhl, by simp [Ipv4Hdr.bytes], by rw [hv]; decide⟩
  rw [OnesSum.verifies_iff hne, Ipv4Hdr.sum_cksum h0]
  exact hK.ipv4 h

/-- The TCP checksum of a segment of a length that an IP packet holds verifies
exactly if the connection's payload memory and the data have the same sum. -/
theorem tcpVerifies_iff (hn : n.toNat ≤ 65495) :
    (txFrame t (txHeaders K c n) data n).TcpVerifies ↔
      OnesSum.sum (c.payload.bytes n.toNat) % 65535 = OnesSum.sum (data.bytes n.toNat) % 65535 := by
  obtain ⟨h, h0, he⟩ := txHeaders_tcp (K := K) c n
  have htotal := txHeaders_totalLength (K := K) c hn
  generalize hip : (txHeaders K c n).rteIpv4Hdr = ip at he htotal
  have hproto : ip.nextProtoId = ipprotoTcp := by rw [← hip]; rfl
  have hlen : (l4Len ip).toNat = 20 + n.toNat := by
    unfold l4Len
    rw [BitVec.toNat_sub_of_le (by rw [BitVec.le_def, htotal]; simp; omega), htotal]
    simp
    omega
  have hsum := hK.udptcp ip (tcpMem h c.payload) (by omega)
  rw [hlen, show (tcpMem h c.payload).bytes (20 + n.toNat) = h.bytes ++ c.payload.bytes n.toNat from
    Mem.bytes_append h.bytes c.payload n.toNat] at hsum
  generalize K.rteIpv4UdptcpCksum ip (tcpMem h c.payload) = ck at hsum he
  have hp : (pseudoHeader ip).length % 2 = 0 := by simp [pseudoHeader]
  have e₁ := OnesSum.sum_append (pseudoHeader ip ++ h.bytes) (c.payload.bytes n.toNat)
    (by rw [List.length_append, TcpHdr.length_bytes]; omega)
  have e₂ := OnesSum.sum_append (pseudoHeader ip ++ { h with cksum := ck }.bytes) (data.bytes n.toNat)
    (by rw [List.length_append, TcpHdr.length_bytes]; omega)
  have e₃ := OnesSum.sum_append (pseudoHeader ip) h.bytes hp
  have e₄ := OnesSum.sum_append (pseudoHeader ip) { h with cksum := ck }.bytes hp
  have e₅ := TcpHdr.sum_cksum h0 ck
  rw [List.append_assoc] at e₁
  show OnesSum.Verifies (pseudoHeader (txHeaders K c n).rteIpv4Hdr ++
    (txHeaders K c n).rteTcpHdr.bytes ++ data.bytes n.toNat) ↔ _
  rw [hip, he]
  rw [OnesSum.verifies_iff ⟨ip.nextProtoId, by simp [pseudoHeader], by rw [hproto]; decide⟩]
  omega

end

/-! ## Every frame of a run -/

def Frame.Verifies (f : Frame) : Prop := f.Ipv4Verifies ∧ f.TcpVerifies

def Seg.Agrees (s : Seg) (m : Mem) : Prop :=
  (sizeT s.size).toNat ≤ 65495 ∧
    OnesSum.sum (m.bytes (sizeT s.size).toNat) % 65535 =
      OnesSum.sum (s.data.bytes (sizeT s.size).toNat) % 65535

def Connection.echoes (c : Connection) (s : Seg) : Bool :=
  match c.tcpState with
  | .synSent => true
  | .synRecv => !segmentCheck c s.size s.seq && s.tcpHdr.has rteTcpSynFlag
  | .established => segmentCheck c s.size s.seq && s.tcpHdr.has rteTcpFinFlag
  | .finWait2 => segmentCheck c s.size s.seq
  | _ => false

/-- The data of a segment that is echoed sums up to what stands in the payload of
the connection answering it, and what the user sends fits an IP packet. -/
def PayloadAgrees (env : Env) (t : Tcp) (op : Op) (o : Option Connection) : Prop :=
  match op, o with
  | .rx p, none => ∀ s ∈ rxSegment t.nic env.pad p, s.tcpHdr.tcpFlags = rteTcpSynFlag →
    ∀ g ∈ env.object, s.Agrees g.payload
  | .rx p, some c => ∀ s ∈ rxSegment t.nic env.pad p, c.echoes s = true → s.Agrees c.payload
  | .send _ data, some _ => data.length ≤ 65495
  | _, _ => True

instance (s : Seg) (m : Mem) : Decidable (s.Agrees m) := inferInstanceAs (Decidable (_ ∧ _))

instance (env : Env) (t : Tcp) : ∀ op o, Decidable (PayloadAgrees env t op o)
  | .rx p, none => inferInstanceAs (Decidable (∀ s ∈ rxSegment t.nic env.pad p, _))
  | .rx p, some _ => inferInstanceAs (Decidable (∀ s ∈ rxSegment t.nic env.pad p, _))
  | .send _ data, some _ => inferInstanceAs (Decidable (data.length ≤ 65495))
  | .send _ _, none => isTrue trivial
  | .connect _ _ _, none => isTrue trivial
  | .connect _ _ _, some _ => isTrue trivial
  | .close _, none => isTrue trivial
  | .close _, some _ => isTrue trivial

theorem toInt_length {n : Nat} (hn : n ≤ 65495) : (BitVec.ofNat 32 n).toInt = n := by
  rw [BitVec.toInt_eq_toNat_cond, BitVec.toNat_ofNat, Nat.mod_eq_of_lt (by omega),
    if_pos (by omega)]

theorem sizeT_length {n : Nat} (hn : n ≤ 65495) : (sizeT (BitVec.ofNat 32 n)).toNat = n := by
  have hi := toInt_length hn
  have hs := sizeT_toNat (hi ▸ Int.natCast_nonneg n)
  omega

theorem loaded_bytes (c : Connection) (data : Mem) {n : Nat} (hn : n ≤ 65495) :
    (c.loaded data (BitVec.ofNat 32 n)).payload.bytes n = data.bytes n := by
  refine List.map_congr_left fun i hi => ?_
  unfold Connection.loaded
  simp only [toInt_length hn, Int.toNat_natCast, List.mem_range.mp hi, ite_true]

section
variable {K : RteCksum} (hK : K.Rfc1071) {env : Env} {t : Tcp}
include hK

theorem sendP_verifies {c : Connection} {data : Mem} {n : BitVec 64} {frames : List Frame}
    (h : sendP env t (txHeaders K c n) data n = some frames)
    (hs : env.mbuf = true → n.toNat ≤ 65495 ∧ OnesSum.sum (c.payload.bytes n.toNat) % 65535 =
      OnesSum.sum (data.bytes n.toNat) % 65535) : ∀ f ∈ frames, f.Verifies := by
  intro f hf
  rcases sendP_some h with ⟨rfl, -⟩ | ⟨rfl, hm, -⟩
  · cases hf
  · rw [List.mem_singleton] at hf
    subst hf
    exact ⟨ipv4_verifies hK t c data n, (tcpVerifies_iff hK t c data n (hs hm).1).mpr (hs hm).2⟩

theorem sendP_verifies_empty {c : Connection} {data : Mem} {frames : List Frame}
    (h : sendP env t (txHeaders K c 0) data 0 = some frames) : ∀ f ∈ frames, f.Verifies :=
  sendP_verifies hK h fun _ => ⟨by decide, rfl⟩

theorem rx_verifies {c : Connection} {s : Seg} {o : Option Connection} {out : Out}
    (h : Rx K env t c s o out)
    (ha : env.mbuf = true → c.echoes s = true → s.Agrees c.payload) :
    ∀ f ∈ out.frames, f.Verifies := by
  unfold Connection.echoes at ha
  cases h with
  | ignored _ => exact fun f hf => nomatch hf
  | synAgain hst hc hf hp =>
    exact sendP_verifies hK hp fun hm => ha hm (by rw [hst]; simp [hc, hf])
  | synAcked _ _ _ => exact fun f hf => nomatch hf
  | synAnswered hst hd hp =>
    refine sendP_verifies hK hp fun hm => ?_
    rcases hd with ⟨-, rfl⟩ | ⟨-, rfl⟩ <;> exact ha hm (by rw [hst])
  | finAnswered hst hc hf hp =>
    exact sendP_verifies hK hp fun hm => ha hm (by rw [hst]; simp [hc, hf])
  | acked _ _ _ _ => exact fun f hf => nomatch hf
  | dataAnswered _ _ _ _ hp => exact sendP_verifies_empty hK hp
  | finAcked _ _ _ hp => exact sendP_verifies_empty hK hp
  | finAcked2 hst hc hp => exact sendP_verifies hK hp fun hm => ha hm (by rw [hst]; exact hc)
  | closed _ => exact fun f hf => nomatch hf

theorem slot_verifies {op : Op} {o o' : Option Connection} {out : Out}
    (h : Slot K env t op o o' out) (ha : env.mbuf = true → PayloadAgrees env t op o) :
    ∀ f ∈ out.frames, f.Verifies := by
  cases h with
  | dropped _ => exact fun f hf => nomatch hf
  | unknown _ _ => exact fun f hf => nomatch hf
  | @opened _ s g _ _ hs hf hg hp _ =>
    refine sendP_verifies hK hp fun hm => ?_
    have hagrees : s.Agrees g.payload := ha hm s hs hf g hg
    exact hagrees
  | handled hs hrx => exact rx_verifies hK hrx fun hm => ha hm _ hs
  | connected _ hp _ => exact sendP_verifies_empty hK hp
  | present => exact fun f hf => nomatch hf
  | noClose => exact fun f hf => nomatch hf
  | noSend => exact fun f hf => nomatch hf
  | finSent hp => exact sendP_verifies_empty hK hp
  | @dataSent _ data c _ hp =>
    refine sendP_verifies hK hp fun hm => ?_
    have hn : data.length ≤ 65495 := ha hm
    rw [sizeT_length hn, loaded_bytes c (tokenMem data) hn]
    exact ⟨hn, rfl⟩

/-- In every run whose steps all meet the condition, every frame sent verifies. -/
theorem frames_verify {tr : List (machine K).Event} {k : Core} (h : Machine.Run tr k)
    (ha : ∀ e ∈ tr, e.input.env.mbuf = true →
      PayloadAgrees e.input.env e.pre.tcp e.input.op (e.pre.conn (eventKey e))) :
    ∀ e ∈ tr, ∀ f ∈ e.out.frames, f.Verifies := by
  intro e he
  obtain ⟨tr₁, hr⟩ := h.reached he
  exact slot_verifies hK (event_slot e (run_rep hr)).2 (ha e he)

end

/-! ## On the host -/

theorem frames_verify_send : ∃ (tr : List (machine rfcCksum).Event) (k : Core),
    Machine.Run tr k ∧ tr.length = 3 ∧ ∀ e ∈ tr, ∀ f ∈ e.out.frames, f.Verifies := by
  obtain ⟨tr, k, hr, hQ⟩ := Machine.exists_run (host_init rfcCksum)
    (peerOpens ++ [userSend [0x41, 0x42]])
    (Q := fun r => r.1.length = 3 ∧ ∀ e ∈ r.1,
      PayloadAgrees e.input.env e.pre.tcp e.input.op (e.pre.conn (eventKey e))) (by decide +kernel)
  obtain ⟨hlen, ha⟩ := of_decide_eq_true hQ
  exact ⟨tr, k, hr, hlen, frames_verify rfcCksum_rfc1071 hr fun e he _ => ha e he⟩

/-- A FIN with one byte of data is answered with that byte under a checksum made
without it. -/
theorem not_frames_verify : ¬∀ K : RteCksum, K.Rfc1071 → ∀ (tr : List (machine K).Event) (k : Core),
    Machine.Run tr k → ∀ e ∈ tr, ∀ f ∈ e.out.frames, f.Verifies := by
  intro h
  obtain ⟨tr, k, hr, e, he, hQ⟩ := Machine.exists_event (host_init rfcCksum)
    (peerOpens ++ [recv (rteTcpFinFlag ||| rteTcpAckFlag) 1 1 [0x41]])
    (Q := fun e => e.out.frames.any fun f => ¬f.TcpVerifies) (by decide +kernel)
  obtain ⟨f, hf, hno⟩ := List.any_eq_true.mp hQ
  exact of_decide_eq_true hno (h rfcCksum rfcCksum_rfc1071 tr k hr e he f hf).2

end TcpDpdk

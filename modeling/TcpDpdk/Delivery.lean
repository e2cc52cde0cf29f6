import TcpDpdk.RecvSpace

/-!
# Delivery of the peer's stream

`handle_tcp_establish` on its own, fed with segments cut from one stream in any
order. Any segment with data passes the acceptance test, is printed, and sets
`rcv.nxt` to its end. What is printed is a prefix of the stream as long as every
segment starts where the ones before it ended, and no longer.
-/

namespace TcpDpdk

/-- The handler as a machine: it starts on a connection in TCP_ESTABLISHED with an
open window, and a step is a segment. -/
def receiver (K : RteCksum) (t : Tcp) (r : BitVec 32) : Machine Connection (Env × Seg) Out where
  init c := c.tcpState = .established ∧ c.receiveSequenceSpace.wnd ≠ 0 ∧
    c.receiveSequenceSpace.nxt = r
  step c i := (handleTcpEstablish K i.1 t c i.2).map fun r => (r.conn, r.out)

/-- `s` carries the `len` bytes of the stream from `off` on; byte `k` of the stream
has the sequence number `r + k`. -/
structure SliceOf (S : List Byte) (r : BitVec 32) (s : Seg) (off len : Nat) : Prop where
  fits : off + len ≤ S.length
  seq : s.seq = r + BitVec.ofNat 32 off
  size : s.size = BitVec.ofNat 32 len
  data : s.data.bytes len = (S.drop off).take len
  fin : s.tcpHdr.has rteTcpFinFlag = false

section
variable {K : RteCksum} {t : Tcp} {r : BitVec 32}

theorem handleTcpEstablish_returns (env : Env) (c : Connection) {s : Seg}
    (hf : s.tcpHdr.has rteTcpFinFlag = false) : ∃ r, handleTcpEstablish K env t c s = some r := by
  unfold handleTcpEstablish
  rw [hf]
  split
  · split
    · contradiction
    · split
      · exact ⟨_, rfl⟩
      · obtain ⟨frames, hp⟩ := tcpTxPackets_empty K env t (c.dataAnswered s) Mem.null
        exact ⟨_, by rw [hp]; rfl⟩
  · exact ⟨_, rfl⟩

def delivered (tr : List (receiver K t r).Event) : List Byte := tr.flatMap (·.out.printed)

/-- What `print_data` has written is a prefix of the stream, and `rcv.nxt` and every
acknowledgment is the number right after it. -/
def InOrderDelivery (S : List Byte) (tr : List (receiver K t r).Event)
    (e : (receiver K t r).Event) : Prop :=
  let n := r + BitVec.ofNat 32 (delivered (tr ++ [e])).length
  delivered (tr ++ [e]) <+: S ∧ e.post.receiveSequenceSpace.nxt = n ∧ ∀ f ∈ e.out.frames, f.ack = n

def received (tr : List (receiver K t r).Event) : Nat := (tr.map (·.input.2.size.toNat)).sum

def NextInOrder (tr : List (receiver K t r).Event) (e : (receiver K t r).Event) : Prop :=
  e.input.2.size ≠ 0 → e.input.2.seq = r + BitVec.ofNat 32 (received tr)

/-! ## One segment -/

def Receiving (c : Connection) : Prop :=
  c.tcpState = .established ∧ c.receiveSequenceSpace.wnd ≠ 0

section
variable {S : List Byte} (hS : S.length < 2 ^ 31) {e : (receiver K t r).Event} {off len : Nat}
  (hsl : SliceOf S r e.input.2 off len)
include hS hsl

theorem slice_size : e.input.2.size.toNat = len ∧ e.input.2.size.toInt = len ∧
    (e.input.2.size = 0 ↔ len = 0) := by
  have hfits := hsl.fits
  have hn : e.input.2.size.toNat = len := by
    rw [hsl.size, BitVec.toNat_ofNat, Nat.mod_eq_of_lt (by omega)]
  refine ⟨hn, ?_, ?_⟩
  · rw [BitVec.toInt_eq_toNat_cond, hn, if_pos (by omega)]
  · rw [← BitVec.toNat_inj, hn]
    rfl

/-- What one segment does: nothing if it is empty; otherwise it is printed and
`rcv.nxt` is moved to its end, wherever that is. -/
theorem receiver_step (hc : Receiving e.pre) : Receiving e.post ∧
    (len = 0 ∧ e.out.printed = [] ∧ e.out.frames = [] ∧
        e.post.receiveSequenceSpace = e.pre.receiveSequenceSpace ∨
      len ≠ 0 ∧ e.out.printed = (S.drop off).take len ∧
        e.post.receiveSequenceSpace.nxt = r + BitVec.ofNat 32 (off + len) ∧
        ∀ f ∈ e.out.frames, f.ack = r + BitVec.ofNat 32 (off + len)) := by
  obtain ⟨hn, hi, hz⟩ := slice_size hS hsl
  obtain ⟨hst, hw⟩ := hc
  obtain ⟨ret, hret, he⟩ := Option.map_eq_some_iff.mp e.fired
  obtain ⟨hpost, hout⟩ := Prod.mk.inj he
  rw [← hpost, ← hout]
  rcases handleTcpEstablish_cases hret with ⟨_, _, hf, _, _⟩ | ⟨hsc, hf, h0, rfl⟩ |
    ⟨frames, hsc, hf, h0, hp, rfl⟩ | ⟨hsc, rfl⟩
  · cases hsl.fin.symm.trans hf
  · exact ⟨⟨hst, hw⟩, Or.inl ⟨hz.mp h0, rfl, rfl, rfl⟩⟩
  · have hnxt : e.input.2.seq + e.input.2.size = r + BitVec.ofNat 32 (off + len) := by
      rw [hsl.seq, hsl.size, BitVec.ofNat_add, add_assoc]
    refine ⟨⟨(sent_tcpState ..).trans hst, ?_⟩, Or.inr ⟨fun h => h0 (hz.mpr h), ?_, ?_, ?_⟩⟩
    · rw [sent_receiveSequenceSpace]
      exact hw
    · show printData e.input.2.data e.input.2.size = _
      unfold printData
      rw [hi, Int.toNat_natCast, hsl.data]
    · rw [sent_receiveSequenceSpace]
      exact hnxt
    · intro f hf
      rw [sendP_ack hp f hf]
      exact hnxt
  · refine ⟨⟨hst, hw⟩, Or.inl ⟨?_, rfl, rfl, rfl⟩⟩
    by_contra h0
    have := (segmentCheck_data (q := e.input.2.seq) fun h => h0 (hz.mp h)).mpr hw
    cases hsc.symm.trans this

end

/-! ## Any number of segments -/

def IsSlice (S : List Byte) (r : BitVec 32) (s : Seg) : Prop := ∃ off len, SliceOf S r s off len

structure InOrderSoFar (S : List Byte) (tr : List (receiver K t r).Event) (c : Connection) : Prop where
  receiving : Receiving c
  length : (delivered tr).length = received tr
  printed : delivered tr <+: S
  nxt : c.receiveSequenceSpace.nxt = r + BitVec.ofNat 32 (received tr)

theorem delivered_snoc (tr : List (receiver K t r).Event) (e : (receiver K t r).Event) :
    delivered (tr ++ [e]) = delivered tr ++ e.out.printed := by
  simp [delivered]

theorem received_snoc (tr : List (receiver K t r).Event) (e : (receiver K t r).Event) :
    received (tr ++ [e]) = received tr + e.input.2.size.toNat := by
  simp [received]

section
variable {S : List Byte} (hS : S.length < 2 ^ 31)
include hS

theorem offset_inj {a b : Nat} (ha : a ≤ S.length) (hb : b ≤ S.length)
    (h : BitVec.ofNat 32 a = BitVec.ofNat 32 b) : a = b := by
  have h := congrArg BitVec.toNat h
  rw [BitVec.toNat_ofNat, BitVec.toNat_ofNat, Nat.mod_eq_of_lt (by omega),
    Nat.mod_eq_of_lt (by omega)] at h
  exact h

theorem inOrder_step {tr : List (receiver K t r).Event} {e : (receiver K t r).Event}
    (hI : InOrderSoFar S tr e.pre) (hsl : IsSlice S r e.input.2) :
    InOrderDelivery S tr e ↔ NextInOrder tr e := by
  obtain ⟨off, len, hsl⟩ := hsl
  have hfits := hsl.fits
  obtain ⟨hn, -, hz⟩ := slice_size hS hsl
  unfold InOrderDelivery NextInOrder
  rw [delivered_snoc, List.length_append, hI.length, hsl.seq]
  rcases (receiver_step hS hsl hI.receiving).2 with ⟨h0, hp, hf, hr⟩ | ⟨h0, hp, hnxt, hacks⟩
  · rw [hp, hf, hr, List.append_nil, List.length_nil, Nat.add_zero]
    refine iff_of_true ⟨hI.printed, hI.nxt, fun _ h => nomatch h⟩ fun h => ?_
    exact absurd (hz.mpr h0) h
  · have hlen : ((S.drop off).take len).length = len := by
      rw [List.length_take, List.length_drop]
      omega
    rw [hp, hlen, hnxt]
    constructor
    · rintro ⟨-, hn, -⟩ -
      have hn := add_left_cancel hn
      rw [BitVec.ofNat_add, BitVec.ofNat_add] at hn
      rw [add_right_cancel hn]
    · intro h
      have hle : received tr ≤ S.length := hI.length ▸ hI.printed.length_le
      have hoff : off = received tr :=
        offset_inj hS (by omega) hle (add_left_cancel (h fun h => h0 (hz.mp h)))
      have htake : delivered tr = S.take off := by
        rw [hoff, ← hI.length]
        exact List.prefix_iff_eq_take.mp hI.printed
      refine ⟨?_, by rw [hoff], fun f hf => by rw [hacks f hf, hoff]⟩
      rw [htake, ← List.take_add]
      exact List.take_prefix ..

/-- Delivery is in order and exactly once throughout a sequence of slices of the
stream, exactly if the slices with data come one after the other. -/
theorem inOrder_iff {tr : List (receiver K t r).Event} {c : Connection} (h : Machine.Run tr c)
    (hsl : ∀ e ∈ tr, IsSlice S r e.input.2) :
    Machine.Meets (InOrderDelivery S) tr ↔ Machine.Meets NextInOrder tr := by
  have hsl : Machine.Meets (fun _ e => IsSlice S r e.input.2) tr := Machine.meets_mem.mpr hsl
  have both := Machine.Run.meets_iff_inv
    (C := fun tr e => IsSlice S r e.input.2 ∧ InOrderDelivery S tr e)
    (D := fun tr e => IsSlice S r e.input.2 ∧ NextInOrder tr e)
    (I := fun tr c => InOrderSoFar S tr c) ?_ ?_ ?_ h
  · rw [Machine.meets_and, Machine.meets_and] at both
    exact ⟨fun hd => (both.mp ⟨hsl, hd⟩).2, fun hn => (both.mpr ⟨hsl, hn⟩).2⟩
  · rintro c ⟨hst, hw, hn⟩
    exact ⟨⟨hst, hw⟩, rfl, List.nil_prefix, by rw [hn]; simp [received]⟩
  · intro tr e _ hI
    exact and_congr_right fun hsl => inOrder_step hS hI hsl
  · rintro tr e - hI ⟨hsl, hnext⟩
    obtain ⟨hpre, hnxt, -⟩ := (inOrder_step hS hI hsl).mpr hnext
    obtain ⟨off, len, hsl⟩ := hsl
    obtain ⟨hrec, hcases⟩ := receiver_step hS hsl hI.receiving
    have hfits := hsl.fits
    have hlen : (delivered (tr ++ [e])).length = received (tr ++ [e]) := by
      rw [delivered_snoc, received_snoc, List.length_append, hI.length, (slice_size hS hsl).1]
      congr 1
      rcases hcases with ⟨h0, hp, -⟩ | ⟨-, hp, -⟩
      · rw [hp, h0]; rfl
      · rw [hp, List.length_take, List.length_drop]
        omega
    exact ⟨hrec, hlen, hpre, hlen ▸ hnxt⟩

end

end

/-! ## On the host -/

def twoBytes : List Byte := [0x41, 0x42]

def bothBytes : Env × Seg := (calm, peerSeg rteTcpAckFlag 1 1 twoBytes)

theorem bothBytes_isSlice : IsSlice twoBytes 1 bothBytes.2 :=
  ⟨0, 2, by decide, by decide, by decide, by decide, by decide⟩

theorem receiver_init : (receiver rfcCksum host.tcp 1).init (expecting1 .established) :=
  ⟨rfl, by decide, rfl⟩

theorem slices_of_inputs {tr : List (receiver rfcCksum host.tcp 1).Event} {n : Nat}
    (h : tr.map (·.input) = List.replicate n bothBytes) : ∀ e ∈ tr, IsSlice twoBytes 1 e.input.2 := by
  intro e he
  have hin : e.input ∈ List.replicate n bothBytes := h ▸ List.mem_map_of_mem he
  rw [(List.mem_replicate.mp hin).2]
  exact bothBytes_isSlice

theorem inOrder_iff_once : ∃ (tr : List (receiver rfcCksum host.tcp 1).Event) (c : Connection),
    Machine.Run tr c ∧ delivered tr = twoBytes ∧
      (Machine.Meets (InOrderDelivery twoBytes) tr ↔ Machine.Meets NextInOrder tr) := by
  obtain ⟨tr, c, hr, hin, hQ⟩ := Machine.exists_replay receiver_init (List.replicate 1 bothBytes)
    (Q := fun r => delivered r.1 = twoBytes) (by decide +kernel)
  exact ⟨tr, c, hr, of_decide_eq_true hQ, inOrder_iff (by decide) hr (slices_of_inputs hin)⟩

theorem not_inOrder : ¬∀ (S : List Byte) (tr : List (receiver rfcCksum host.tcp 1).Event)
    (c : Connection), S.length < 2 ^ 31 → Machine.Run tr c → (∀ e ∈ tr, IsSlice S 1 e.input.2) →
    Machine.Meets (InOrderDelivery S) tr := by
  intro h
  obtain ⟨tr, c, hr, hin, hQ⟩ := Machine.exists_replay receiver_init (List.replicate 2 bothBytes)
    (Q := fun r => match r.1 with
      | [a, e] => ¬(delivered [a, e] <+: twoBytes)
      | _ => false) (by decide +kernel)
  simp only at hQ
  split at hQ
  · rename_i a e
    have hd := h twoBytes _ c (by decide) hr (slices_of_inputs hin) [a] e [] rfl
    exact of_decide_eq_true hQ hd.1
  · cases hQ

end TcpDpdk

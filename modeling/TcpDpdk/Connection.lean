import TcpDpdk.Lib.Circle
import TcpDpdk.Lib.Store
import TcpDpdk.Wire

/-!
# Connections and their sequence numbers

The state of one connection and of one core, the wrapped comparisons the
handlers test acknowledgments with, and the acceptance test for segments.
-/

namespace TcpDpdk

inductive TcpState where
  | established | synSent | synRecv | finWait1 | finWait2 | timeWait | close | closeWait
  | lastAck | listen | closing | maxStates
  deriving DecidableEq

/-- The four fields are followed by gaps, two bytes after each port, which an
assignment of the fields leaves alone; `pad` is what they contain. -/
structure Quad where
  sip : BitVec 32
  sport : BitVec 16
  dip : BitVec 32
  dport : BitVec 16
  pad : BitVec 32
  deriving DecidableEq

structure SendSequenceSpace where
  una : BitVec 32
  nxt : BitVec 32
  wnd : BitVec 16
  up : Bool
  wl1 : BitVec 64
  wl2 : BitVec 64
  iss : BitVec 32
  deriving DecidableEq

structure ReceiveSequenceSpace where
  nxt : BitVec 32
  wnd : BitVec 16
  up : Bool
  irs : BitVec 32
  deriving DecidableEq

structure Connection where
  q : Quad
  tcpState : TcpState
  sendSequenceSpace : SendSequenceSpace
  receiveSequenceSpace : ReceiveSequenceSpace
  rteIpv4Hdr : Ipv4Hdr
  rteTcpHdr : TcpHdr
  /-- the memory right behind `rteTcpHdr`; its first hundred bytes are the array of that name -/
  payload : Mem

structure Nic where
  ip : BitVec 32
  mac : BitVec 48
  dstMac : BitVec 48
  deriving DecidableEq

structure TcpStatistics where
  connectionCount : BitVec 64
  firstConnection : BitVec 64
  lastConnection : BitVec 64
  deriving DecidableEq

abbrev RteHash := Store.Table Quad Nat 128

structure Tcp where
  nic : Nic
  rteHash : RteHash
  stats : TcpStatistics

structure Env where
  /-- `rte_mbuf_raw_alloc` had a buffer -/
  mbuf : Bool
  /-- the uninitialised object `rte_malloc` returned, if any -/
  object : Option Connection
  /-- the unset bytes of a `struct quad` on the stack -/
  pad : BitVec 32
  clock : BitVec 64

/-- The functions of `rte_ip.h` that are not part of this program. The second one
is given the memory from the TCP header on. -/
structure RteCksum where
  rteIpv4Cksum : Ipv4Hdr → BitVec 16
  rteIpv4UdptcpCksum : Ipv4Hdr → Mem → BitVec 16

/-- The initial send sequence number: `uint32_t iss = 0` wherever a connection is made. -/
def iss : BitVec 32 := 0

/-! ## Wrapped comparisons -/

def wrappingLt (lhs rhs : BitVec 32) : Bool := 0x80000000#32 < lhs - rhs

def isBetweenWrapped (start x stop : BitVec 32) : Bool := wrappingLt start x && wrappingLt x stop

theorem wrappingLt_iff (a x : BitVec 32) : wrappingLt a x = true ↔ Circle.wlt a x := by
  unfold wrappingLt Circle.wlt
  rw [decide_eq_true_eq, BitVec.lt_def]
  rfl

/-- The idiom of the handlers: both ends moved out by one, so that the comparison
is with the closed arc from `a` to `b`. -/
theorem isBetweenWrapped_iff {a b x : BitVec 32} (h : Circle.fwd a b + 1 < 2 ^ 31) :
    isBetweenWrapped (a - 1) x (b + 1) = true ↔ Circle.fwd a x ≤ Circle.fwd a b := by
  unfold isBetweenWrapped
  rw [Bool.and_eq_true, wrappingLt_iff, wrappingLt_iff]
  exact Circle.between_iff (by decide) h

/-- The wrapped comparisons: with both ends moved out by one they are membership of the
closed arc, up to the longest arc for which this can be; alone, they are a strict order
on the points of any arc shorter than half the circle, wherever it lies. -/
theorem wrapped_comparison :
    (∀ a b x : BitVec 32, (b - a).toNat ≤ 2 ^ 31 - 2 →
      (isBetweenWrapped (a - 1) x (b + 1) = true ↔ (x - a).toNat ≤ (b - a).toNat)) ∧
    (∀ a : BitVec 32, wrappingLt a a = false) ∧
    (∀ a b : BitVec 32, wrappingLt a b = true → wrappingLt b a = false) ∧
    (∀ a b k : BitVec 32, wrappingLt (a + k) (b + k) = wrappingLt a b) ∧
    (∀ (s : BitVec 32) (n : Nat), n < 2 ^ 31 → ∀ a b c : BitVec 32,
      (a - s).toNat ≤ n → (b - s).toNat ≤ n → (c - s).toNat ≤ n →
      wrappingLt a b = true → wrappingLt b c = true → wrappingLt a c = true) := by
  refine ⟨?_, ?_, ?_, ?_, ?_⟩
  · intro a b x h
    exact isBetweenWrapped_iff (a := a) (b := b) (x := x) (by unfold Circle.fwd; omega)
  · intro a
    rw [Bool.eq_false_iff, Ne, wrappingLt_iff]
    exact Circle.wlt_irrefl a
  · intro a b hab
    rw [wrappingLt_iff] at hab
    rw [Bool.eq_false_iff, Ne, wrappingLt_iff]
    exact Circle.wlt_asymm (by decide) hab
  · intro a b k
    rw [Bool.eq_iff_iff, wrappingLt_iff, wrappingLt_iff]
    exact Circle.wlt_add_right a b k
  · intro s n hn a b c ha hb hc hab hbc
    rw [wrappingLt_iff] at hab hbc ⊢
    exact Circle.wlt_trans (by decide) hn ha hb hc hab hbc

theorem wrapped_comparison_zero :
    (isBetweenWrapped (0xfffffffe - 1) 1 (3 + 1) = true ↔
      (1 - 0xfffffffe : BitVec 32).toNat ≤ (3 - 0xfffffffe : BitVec 32).toNat) ∧
    wrappingLt 0xfffffffe 3 = true :=
  ⟨wrapped_comparison.1 0xfffffffe 3 1 (by decide),
    wrapped_comparison.2.2.2.2 0xfffffffe 5 (by decide) 0xfffffffe 1 3 (by decide) (by decide)
      (by decide) (by decide) (by decide)⟩

/-! ## The acceptance test -/

def segmentCheck (c : Connection) (slen seqn : BitVec 32) : Bool :=
  let wnd := c.receiveSequenceSpace.nxt + c.receiveSequenceSpace.wnd.setWidth 32
  if slen = 0 then
    if c.receiveSequenceSpace.wnd = 0 then
      seqn = c.receiveSequenceSpace.nxt
    else
      isBetweenWrapped (c.receiveSequenceSpace.nxt - 1) seqn wnd
  else
    if c.receiveSequenceSpace.wnd = 0 then
      false
    else
      true -- no window test for a segment with data

theorem segmentCheck_data {c : Connection} {n q : BitVec 32} (hs : n ≠ 0) :
    segmentCheck c n q = true ↔ c.receiveSequenceSpace.wnd ≠ 0 := by
  unfold segmentCheck
  rw [if_neg hs]
  by_cases hw : c.receiveSequenceSpace.wnd = 0 <;> simp [hw]

theorem segmentCheck_empty {c : Connection} {seqn : BitVec 32} :
    segmentCheck c 0 seqn = true ↔
      seqn = c.receiveSequenceSpace.nxt ∨
        Circle.fwd c.receiveSequenceSpace.nxt seqn < c.receiveSequenceSpace.wnd.toNat := by
  unfold segmentCheck
  rw [if_pos rfl]
  generalize c.receiveSequenceSpace.nxt = r
  generalize c.receiveSequenceSpace.wnd = w
  have hw := w.isLt
  by_cases h0 : w = 0
  · simp [h0]
  · have hpos : 0 < w.toNat := Nat.pos_of_ne_zero fun h => h0 (BitVec.eq_of_toNat_eq h)
    -- the window ends one after its last number, which the comparison leaves out
    have hb : Circle.fwd r (r + BitVec.ofNat 32 (w.toNat - 1)) = w.toNat - 1 :=
      Circle.fwd_add r (by omega)
    have he : r + w.setWidth 32 = (r + BitVec.ofNat 32 (w.toNat - 1)) + 1 := by
      rw [add_assoc]; congr 1
      apply BitVec.eq_of_toNat_eq
      simp only [BitVec.toNat_setWidth, BitVec.toNat_add, BitVec.toNat_ofNat, BitVec.ofNat_eq_ofNat]
      omega
    rw [if_neg h0, he, isBetweenWrapped_iff (by rw [hb]; omega), hb]
    constructor
    · intro h; exact Or.inr (by omega)
    · rintro (rfl | h)
      · rw [Circle.fwd_self]; omega
      · omega

theorem segmentCheck_self {c : Connection} {seqn : BitVec 32} (h : c.receiveSequenceSpace.nxt = seqn) :
    segmentCheck c 0 seqn = true := segmentCheck_empty.mpr (Or.inl h.symm)

end TcpDpdk

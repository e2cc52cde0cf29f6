import TcpDpdk.Handlers
import TcpDpdk.Lib.Machine

/-!
# One core: the receive loop and the user's commands

A core is a `struct tcp` together with the connections `rte_malloc` gave out. The
body of the receive loop and the three commands are its steps; `machine` is the
system they make.
-/

namespace TcpDpdk

structure Core where
  tcp : Tcp
  heap : Store.Heap Connection

/-- `initialize_tcp`; one field of the statistics is set twice and another never. -/
def initializeTcp (nic : Nic) (lastConnection : BitVec 64) : Core where
  tcp := {
    nic
    rteHash := Store.Table.empty
    stats := { connectionCount := 0, firstConnection := 0, lastConnection } }
  heap := Store.Heap.empty

/-! ## Receiving -/

/-- Computed in `size_t` and stored in an `int`. -/
def rxSize (ip : Ipv4Hdr) (tcp : TcpHdr) : BitVec 32 :=
  ((rteBeToCpu16 ip.totalLength).setWidth 64 - 20#64 - tcp.hdrLen.setWidth 64).setWidth 32

/-- What the receive loop makes of a frame before it looks the connection up;
`none` if it drops the frame. -/
def rxSegment (nic : Nic) (pad : BitVec 32) (p : Packet) : Option Seg :=
  if p.ether.dAddr ≠ nic.mac then
    none
  else if p.ether.etherType = rteBeToCpu16 rteEtherTypeIpv4 then
    if nic.ip ≠ p.ipv4.dstAddr then
      none
    else if p.ipv4.nextProtoId = ipprotoTcp then
      some {
        q := {
          sip := p.ipv4.srcAddr
          dip := p.ipv4.dstAddr
          sport := p.tcp.srcPort
          dport := p.tcp.dstPort
          pad }
        tcpHdr := p.tcp
        ipv4Hdr := p.ipv4
        data := p.data
        size := rxSize p.ipv4 p.tcp }
    else none
  else none

def rxSwitch (K : RteCksum) (env : Env) (t : Tcp) (c : Connection) (s : Seg) : Option Ret :=
  match c.tcpState with
  | .synRecv => handleTcpSynRecv K env t c s
  | .established => handleTcpEstablish K env t c s
  | .lastAck => some (handleTcpLastAck t c)
  | .synSent => handleTcpSynSent K env t c s
  | .finWait1 => handleTcpFinWait1 K env t c s
  | .finWait2 => handleTcpFinWait2 K env t c s
  | _ => some ⟨t, c, {}⟩

def rxDispatch (K : RteCksum) (env : Env) (k : Core) (s : Seg) : Option (Core × Out) :=
  match k.tcp.rteHash.lookup s.q with
  | none =>
    (handleTcpListen K env k.tcp s).map fun
      | (none, out) => (k, out)
      | (some c, out) =>
        ({ tcp := { k.tcp with rteHash := k.tcp.rteHash.add s.q k.heap.next }
           heap := k.heap.alloc c }, out)
  | some p =>
    match k.heap.read p with
    | none => none -- a dangling pointer
    | some c =>
      (rxSwitch K env k.tcp c s).map fun r =>
        if c.tcpState = .lastAck then
          ({ tcp := rteHashDelKey r.tcp s.q, heap := k.heap.free p }, r.out)
        else
          ({ tcp := r.tcp, heap := k.heap.write p r.conn }, r.out)

def tcpRxPacket (K : RteCksum) (env : Env) (k : Core) (p : Packet) : Option (Core × Out) :=
  match rxSegment k.tcp.nic env.pad p with
  | none => some (k, {})
  | some s => rxDispatch K env k s

/-- All that the dispatch of a segment can do. -/
inductive RxStep (K : RteCksum) (env : Env) (k : Core) (s : Seg) : Core → Out → Prop
  | ignored {out} : k.tcp.rteHash.lookup s.q = none →
      handleTcpListen K env k.tcp s = some (none, out) → RxStep K env k s k out
  | opened {c out} : k.tcp.rteHash.lookup s.q = none →
      handleTcpListen K env k.tcp s = some (some c, out) →
      RxStep K env k s
        ⟨{ k.tcp with rteHash := k.tcp.rteHash.add s.q k.heap.next }, k.heap.alloc c⟩ out
  | freed {p c r} : k.tcp.rteHash.lookup s.q = some p → k.heap.read p = some c →
      rxSwitch K env k.tcp c s = some r → c.tcpState = .lastAck →
      RxStep K env k s ⟨rteHashDelKey r.tcp s.q, k.heap.free p⟩ r.out
  | handled {p c r} : k.tcp.rteHash.lookup s.q = some p → k.heap.read p = some c →
      rxSwitch K env k.tcp c s = some r → c.tcpState ≠ .lastAck →
      RxStep K env k s ⟨r.tcp, k.heap.write p r.conn⟩ r.out

theorem rxDispatch_some {K : RteCksum} {env : Env} {k k' : Core} {s : Seg} {out : Out}
    (h : rxDispatch K env k s = some (k', out)) : RxStep K env k s k' out := by
  unfold rxDispatch at h
  split at h
  · rename_i hl
    obtain ⟨⟨o, out'⟩, hL, he⟩ := Option.map_eq_some_iff.mp h
    cases o with
    | none =>
      cases he
      exact .ignored hl hL
    | some c =>
      cases he
      exact .opened hl hL
  · rename_i p hl
    split at h
    · cases h
    · rename_i c hr
      obtain ⟨r, hsw, he⟩ := Option.map_eq_some_iff.mp h
      by_cases hst : c.tcpState = .lastAck
      · rw [if_pos hst] at he
        cases he
        exact .freed hl hr hsw hst
      · rw [if_neg hst] at he
        cases he
        exact .handled hl hr hsw hst

/-! ## Commands -/

def connectConnection (g : Connection) (q : Quad) : Connection :=
  let wnd : BitVec 16 := 64240
  { g with
    q
    tcpState := .synSent
    sendSequenceSpace := { una := iss, nxt := iss, wnd, up := false, wl1 := 0, wl2 := 0, iss }
    receiveSequenceSpace := { irs := iss, nxt := iss, wnd, up := false }
    rteIpv4Hdr := { g.rteIpv4Hdr with srcAddr := q.dip, dstAddr := q.sip }
    rteTcpHdr := { g.rteTcpHdr with
      srcPort := q.dport
      dstPort := q.sport
      sentSeq := 0
      rxWin := rteCpuToBe16 wnd
      tcpFlags := rteTcpSynFlag } }

/-- The key `active_connect` builds: the remote end is the source. -/
def connectQuad (nic : Nic) (pad : BitVec 32) (dip : BitVec 32) (dport sport : BitVec 16) : Quad where
  sip := dip
  sport := dport
  dip := nic.ip
  dport := sport
  pad

def activeConnect (K : RteCksum) (env : Env) (k : Core) (dip : BitVec 32) (dport sport : BitVec 16) :
    Option (Core × Out) :=
  let q := connectQuad k.tcp.nic env.pad dip dport sport
  match k.tcp.rteHash.lookup q with
  | none =>
    match env.object with
    | none => none
    | some g =>
      (tcpTxPackets K env k.tcp (connectConnection g q) Mem.null 0).map fun (c, frames) =>
        ({ tcp := { k.tcp with rteHash := k.tcp.rteHash.add q k.heap.next }
           heap := k.heap.alloc c }, { frames })
  | some _ => some (k, {})

def Connection.finRaised (c : Connection) : Connection :=
  { c with rteTcpHdr.tcpFlags := rteTcpFinFlag ||| rteTcpAckFlag }

theorem finRaised_nxt {K : RteCksum} (c : Connection) (n : BitVec 64) :
    (c.finRaised.sent K n).sendSequenceSpace.nxt = c.sendSequenceSpace.nxt + 1 :=
  sent_nxt_flags (c := c.finRaised) (f := rteTcpFinFlag ||| rteTcpAckFlag) rfl (by decide)

def activeClose (K : RteCksum) (env : Env) (t : Tcp) (c : Connection) :
    Option (Connection × List Frame) :=
  (tcpTxPackets K env t c.finRaised Mem.null 0).map fun (c, frames) =>
    ({ c with tcpState := .finWait1 }, frames)

/-- The copying loop has no bound. Behind `sizeofPayload` it writes over what comes next
in memory, which the model leaves alone; `boundedMachine` stops there. -/
def Connection.loaded (c : Connection) (data : Mem) (size : BitVec 32) : Connection :=
  { c with
    rteTcpHdr.tcpFlags := rteTcpAckFlag ||| rteTcpPshFlag
    payload := fun i => if i < size.toInt.toNat then data i else c.payload i }

/-- `char payload[100]` -/
def sizeofPayload : Nat := 100

def payloadWrites (size : BitVec 32) : List Nat := List.range size.toInt.toNat

theorem payloadWrites_loaded (c : Connection) (data : Mem) (size : BitVec 32) :
    (c.loaded data size).payload =
      (payloadWrites size).foldl (fun m i => Function.update m i (data i)) c.payload := by
  unfold payloadWrites Connection.loaded
  dsimp only
  induction size.toInt.toNat with
  | zero => rfl
  | succ n ih =>
    rw [List.range_succ, List.foldl_append, ← ih]
    funext i
    by_cases hi : i = n
    · subst hi
      simp
    · have hlt : i < n + 1 ↔ i < n := by omega
      simp [Function.update_of_ne hi, hlt]

theorem loaded_quiet (c : Connection) (data : Mem) (size : BitVec 32) : (c.loaded data size).Quiet :=
  quiet_of_flags (f := rteTcpAckFlag ||| rteTcpPshFlag) rfl (by decide)

def activeSendData (K : RteCksum) (env : Env) (t : Tcp) (c : Connection) (data : Mem)
    (size : BitVec 32) : Option (Connection × List Frame) :=
  tcpTxPackets K env t (c.loaded data size) data (sizeT size)

/-- What the commands on an existing flow share: look the quad up and act on the
connection found. -/
def cliFlow (k : Core) (q : Quad) (act : Connection → Option (Connection × List Frame)) :
    Option (Core × Out) :=
  match k.tcp.rteHash.lookup q with
  | none => some (k, {}) -- connection not found
  | some p =>
    match k.heap.read p with
    | none => none -- a dangling pointer
    | some c => (act c).map fun (c, frames) => ({ k with heap := k.heap.write p c }, { frames })

/-! ## The machine -/

/-- The unset bytes of the quad of `close` and `send` come from `Env.pad` too. -/
inductive Op where
  | rx (p : Packet)
  | connect (dip : BitVec 32) (dport sport : BitVec 16)
  | close (q : Quad)
  | send (q : Quad) (data : List Byte)

structure Input where
  op : Op
  env : Env

/-- A token of the command line, as `strlen` and a pointer to it. -/
def tokenMem (data : List Byte) : Mem := fun i => data.getD i 0

def step (K : RteCksum) (k : Core) (i : Input) : Option (Core × Out) :=
  match i.op with
  | .rx p => tcpRxPacket K i.env k p
  | .connect dip dport sport => activeConnect K i.env k dip dport sport
  | .close q => cliFlow k { q with pad := i.env.pad } (activeClose K i.env k.tcp)
  | .send q data =>
    cliFlow k { q with pad := i.env.pad } fun c =>
      activeSendData K i.env k.tcp c (tokenMem data) (BitVec.ofNat 32 data.length)

def machine (K : RteCksum) : Machine Core Input Out where
  init k := ∃ nic last, k = initializeTcp nic last
  step := step K

def keyOf (nic : Nic) (i : Input) : Quad :=
  match i.op with
  | .rx p => ⟨p.ipv4.srcAddr, p.tcp.srcPort, p.ipv4.dstAddr, p.tcp.dstPort, i.env.pad⟩
  | .connect dip dport sport => connectQuad nic i.env.pad dip dport sport
  | .close q => { q with pad := i.env.pad }
  | .send q _ => { q with pad := i.env.pad }

theorem rxSegment_some {nic : Nic} {pad : BitVec 32} {p : Packet} {s : Seg}
    (h : rxSegment nic pad p = some s) :
    nic.ip = p.ipv4.dstAddr ∧
      s = ⟨⟨p.ipv4.srcAddr, p.tcp.srcPort, p.ipv4.dstAddr, p.tcp.dstPort, pad⟩, p.tcp, p.ipv4, p.data,
        rxSize p.ipv4 p.tcp⟩ := by
  unfold rxSegment at h
  split at h
  · cases h
  · split at h
    · split at h
      · cases h
      · rename_i hip
        split at h
        · exact ⟨not_not.mp hip, (Option.some.inj h).symm⟩
        · cases h
    · cases h

theorem rxSegment_accepts {nic : Nic} {pad : BitVec 32} {p : Packet} (hmac : p.ether.dAddr = nic.mac)
    (htype : p.ether.etherType = rteBeToCpu16 rteEtherTypeIpv4) (hip : nic.ip = p.ipv4.dstAddr)
    (hproto : p.ipv4.nextProtoId = ipprotoTcp) :
    rxSegment nic pad p = some ⟨⟨p.ipv4.srcAddr, p.tcp.srcPort, p.ipv4.dstAddr, p.tcp.dstPort, pad⟩,
      p.tcp, p.ipv4, p.data, rxSize p.ipv4 p.tcp⟩ := by
  unfold rxSegment
  rw [if_neg (not_not.mpr hmac), if_pos htype, if_neg (not_not.mpr hip), if_pos hproto]

end TcpDpdk
